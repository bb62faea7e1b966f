import Orchid.Core.ByteMem
import Orchid.Core.CString
import Orchid.Ipc.Model

/-! # The service directory

A model of `kernel/bus.c`. The array `services` is kept as its bytes: 36 for
each slot, the name first and the port behind it.

* `bus_register` copies the name without a terminator behind it. The slots are
  filled in order and were zero at boot, so each one still spells the
  characters that were copied (`Bus.Holds`).
* The comparison in `bus_lookup` runs until both strings have ended. It records
  the last index of each slot's name that it read.
* `Directory` is what the bus is for: the names in the order in which they were
  registered.
-/

namespace Orchid

open ByteMem Function

/-- `MAX_SERVICES`. -/
def maxServices : Nat := 32

/-- `NAME_MAX`. -/
def nameMax : Nat := 32

/-- `sizeof(service_t)`. -/
def sizeofService : Nat := 36

/-- The static variables of `bus.c`. -/
structure Bus where
  services : ByteMem
  nextPort : Nat
  numServices : Nat

/-- `services[i].name`. -/
def Bus.name (b : Bus) (i : Nat) : Nat → UInt8 := fun j => b.services (sizeofService * i + j)

/-- `services[i].port`. -/
def Bus.port (b : Bus) (i : Nat) : Nat := read32 b.services (sizeofService * i + nameMax)

/-- The bus at boot. -/
def bootBus : Bus := ⟨fun _ => 0, 0, 0⟩

/-- The loop of `bus_register`, with `n` rounds at most from index `i` on. -/
def copyName (name : Nat → UInt8) (dst : Nat) : Nat → Nat → ByteMem → ByteMem
  | 0, _, mem => mem
  | n + 1, i, mem =>
    if name i = 0 then mem
    else copyName name dst n (i + 1) (update mem (dst + i) (name i))

/-- `bus_register`. -/
def busRegister (name : Nat → UInt8) (b : Bus) : Int × Bus :=
  if maxServices ≤ b.numServices then (-1, b) else
  let slot := sizeofService * b.numServices
  let mem := copyName name slot (nameMax - 1) 0 b.services
  let mem := update mem (slot + (nameMax - 1)) 0
  let mem := write32 mem (slot + nameMax) b.nextPort
  (read32 mem (slot + nameMax), ⟨mem, b.nextPort + 1, b.numServices + 1⟩)

/-- The loop of `bus_lookup` over `n` slots from `i` on: the port, and for each
slot it compared the last index of its name that it read. -/
def lookupFrom (fuel : Nat) (name : Nat → UInt8) (b : Bus) : Nat → Nat → Option (Int × List Nat)
  | _, 0 => some (-1, [])
  | i, n + 1 =>
    match compareStrings name (b.name i) fuel 0 with
    | none => none
    | some (true, last) => some (b.port i, [last])
    | some (false, last) =>
      (lookupFrom fuel name b (i + 1) n).map fun (port, reads) => (port, last :: reads)

/-- `bus_lookup`. -/
def busLookup (fuel : Nat) (name : Nat → UInt8) (b : Bus) : Option (Int × List Nat) :=
  lookupFrom fuel name b 0 b.numServices

/-- Calls of `bus_register`, one after the other, with what they return. -/
def registerAll : List CString → Bus → List Int × Bus
  | [], b => ([], b)
  | n :: names, b =>
    let (port, b) := busRegister n.byte b
    let (ports, b) := registerAll names b
    (port :: ports, b)

/-! ## The directory -/

/-- The registered names; the port of a name is its place. -/
abbrev Directory := List (List UInt8)

/-- The port of the earliest registration of `t`. -/
def Directory.lookup (d : Directory) (t : List UInt8) : Int :=
  match d.idxOf? t with
  | some i => i
  | none => -1

/-- What is returned to `n` calls after which `d` names are registered. -/
def portsFrom (d n : Nat) : List Int :=
  (List.range' d n).map fun i => if i < maxServices then (i : Int) else -1

/-- The slots spell the names of the directory, and the others are zero. -/
structure Bus.Holds (b : Bus) (d : Directory) : Prop where
  numServices : b.numServices = d.length
  nextPort : b.nextPort = d.length
  room : d.length ≤ maxServices
  short : ∀ t ∈ d, t.length < nameMax
  names : ∀ i t, d[i]? = some t → Spells (b.name i) 0 t
  ports : ∀ i, i < d.length → b.port i = i
  clear : ∀ x, sizeofService * d.length ≤ x → b.services x = 0

section Holds

variable {b : Bus} {d : Directory} {name : Nat → UInt8} {t : List UInt8}

theorem holds_bootBus : bootBus.Holds [] := by
  constructor <;> simp [bootBus]

/-- The copy stores the characters up to the bound, and nothing else. -/
theorem copyName_apply {dst n i : Nat} {mem : ByteMem} (h : Spells name i t) (x : Nat) :
    copyName name dst n i mem x =
      if dst + i ≤ x ∧ x < dst + i + min n t.length then name (x - dst) else mem x := by
  induction n generalizing i t mem with
  | zero =>
    have hnone : ¬ (dst + i ≤ x ∧ x < dst + i + min 0 t.length) := by omega
    rw [copyName, if_neg hnone]
  | succ n ih =>
    cases t with
    | nil =>
      have hzero : name i = 0 := h
      have hnone : ¬ (dst + i ≤ x ∧ x < dst + i + min (n + 1) ([] : List UInt8).length) := by
        simp only [List.length_nil]
        omega
      rw [copyName, if_pos hzero, if_neg hnone]
    | cons c t =>
      have hne : name i ≠ 0 := by
        rw [h.2.1]
        exact h.1
      rw [copyName, if_neg hne, ih h.2.2]
      simp only [List.length_cons]
      by_cases hx : x = dst + i
      · -- the byte of this round is not written again
        rw [if_neg (by omega), if_pos (by omega), hx, update_self]
        congr 1
        omega
      · rw [update_of_ne hx]
        by_cases hin : dst + (i + 1) ≤ x ∧ x < dst + (i + 1) + min n t.length
        · rw [if_pos hin, if_pos (by omega)]
        · rw [if_neg hin, if_neg (by omega)]

/-- The memory that a successful registration leaves. -/
theorem busRegister_of_room (h : b.Holds d) (hroom : d.length < maxServices)
    (ht : Spells name 0 t) :
    ∃ mem, busRegister name b = (((read32 mem (sizeofService * d.length + nameMax) : Nat) : Int),
        ⟨mem, d.length + 1, d.length + 1⟩) ∧
      read32 mem (sizeofService * d.length + nameMax) = d.length ∧
      (∀ j, j < min 31 t.length → mem (sizeofService * d.length + j) = name j) ∧
      (∀ j, min 31 t.length ≤ j → j < nameMax → mem (sizeofService * d.length + j) = 0) ∧
      ∀ x, x < sizeofService * d.length ∨ sizeofService * (d.length + 1) ≤ x →
        mem x = b.services x := by
  have hnot : ¬ maxServices ≤ b.numServices := by
    rw [h.numServices]
    omega
  unfold busRegister
  rw [if_neg hnot, h.numServices, h.nextPort]
  refine ⟨_, rfl, ?_, ?_, ?_, ?_⟩
  · have hlt : d.length < 256 ^ 4 := by
      have := h.room
      unfold maxServices at this
      omega
    unfold read32 write32
    rw [readLE_writeLE_self, Nat.mod_eq_of_lt hlt]
  · intro j hj
    unfold write32
    rw [writeLE_apply_of_outside (by unfold nameMax; omega),
      update_of_ne (by unfold nameMax; omega), copyName_apply ht,
      if_pos (by unfold nameMax; omega), Nat.add_sub_cancel_left]
  · intro j hlo hhi
    unfold write32
    rw [writeLE_apply_of_outside (by omega)]
    by_cases hj : j = 31
    · rw [hj]
      exact update_self ..
    · -- what the copy does not reach was never written
      rw [update_of_ne (by unfold nameMax; omega), copyName_apply ht,
        if_neg (by unfold nameMax; omega)]
      exact h.clear _ (Nat.le_add_right _ _)
  · intro x hx
    unfold sizeofService at hx
    unfold write32 sizeofService nameMax
    rw [writeLE_apply_of_outside (by omega), update_of_ne (by omega), copyName_apply ht,
      if_neg (by omega)]

/-- A registration while there is room appends the name, cut to 31 characters. -/
theorem Bus.Holds.register (h : b.Holds d) (hroom : d.length < maxServices)
    (ht : Spells name 0 t) :
    (busRegister name b).1 = d.length ∧ (busRegister name b).2.Holds (d ++ [t.take 31]) := by
  rcases busRegister_of_room h hroom ht with ⟨mem, heq, hport, hcopied, hzero, hother⟩
  rw [heq]
  -- the slots registered before lie below the new one
  have hbelow : ∀ i j, i < d.length → j < sizeofService →
      mem (sizeofService * i + j) = b.services (sizeofService * i + j) := by
    intro i j hi hj
    apply hother
    unfold sizeofService at hj ⊢
    omega
  refine ⟨congrArg Nat.cast hport, ⟨?_, ?_, ?_, ?_, ?_, ?_, ?_⟩⟩
  · simp
  · simp
  · rw [List.length_append, List.length_singleton]
    exact hroom
  · intro u hu
    rcases List.mem_append.mp hu with hu | hu
    · exact h.short u hu
    · rw [List.mem_singleton.mp hu, List.length_take]
      unfold nameMax
      omega
  · intro i u hu
    rcases Nat.lt_or_ge i d.length with hi | hi
    · rw [List.getElem?_append_left hi] at hu
      have hshort := h.short u (List.mem_of_getElem? hu)
      apply (h.names i u hu).congr
      intro j _ hj
      apply hbelow i j hi
      unfold nameMax at hshort
      unfold sizeofService
      omega
    · -- the new slot
      rw [List.getElem?_append_right hi, List.getElem?_singleton] at hu
      split at hu
      · next hlast =>
        obtain rfl : i = d.length := by omega
        obtain rfl := Option.some.inj hu
        apply ht.take
        · intro j _ hj
          exact hcopied j (by omega)
        · apply hzero
          · omega
          · unfold nameMax
            omega
      · cases hu
  · intro i hi
    rw [List.length_append, List.length_singleton] at hi
    rcases Nat.lt_or_ge i d.length with hlt | hge
    · refine Eq.trans ?_ (h.ports i hlt)
      apply readLE_congr
      intro j hj
      rw [Nat.add_assoc]
      exact hbelow i (nameMax + j) hlt (by unfold nameMax sizeofService; omega)
    · obtain rfl : i = d.length := by omega
      exact hport
  · intro x hx
    rw [List.length_append, List.length_singleton] at hx
    refine (hother x (Or.inr hx)).trans ?_
    apply h.clear
    unfold sizeofService at hx ⊢
    omega

theorem Bus.Holds.register_full (h : b.Holds d) (hfull : d.length = maxServices) :
    busRegister name b = (-1, b) := by
  unfold busRegister
  rw [if_pos (by rw [h.numServices, hfull])]

/-- The slots from `i` on are searched in order, none of them beyond its name. -/
theorem Bus.Holds.lookupFrom {fuel : Nat} (h : b.Holds d) (ht : Spells name 0 t)
    (hfuel : nameMax ≤ fuel) (i n : Nat) (hn : i + n = d.length) :
    ∃ reads, lookupFrom fuel name b i n =
        some (match (d.drop i).idxOf? t with | some k => ((i + k : Nat) : Int) | none => -1, reads) ∧
      ∀ last ∈ reads, last < nameMax := by
  induction n generalizing i with
  | zero =>
    refine ⟨[], ?_, by simp⟩
    rw [List.drop_eq_nil_of_le (by omega)]
    rfl
  | succ n ih =>
    have hi : i < d.length := by omega
    have hget : d[i]? = some d[i] := List.getElem?_eq_getElem hi
    have hshort := h.short d[i] (List.getElem_mem hi)
    rcases compareStrings_spec ht (h.names i _ hget) (Nat.lt_of_lt_of_le hshort hfuel) with
      ⟨last, hlast, hcompare⟩
    have hdrop : d.drop i = d[i] :: d.drop (i + 1) := List.drop_eq_getElem_cons hi
    rw [Orchid.lookupFrom, hcompare, hdrop, List.idxOf?_cons]
    by_cases heq : t = d[i]
    · refine ⟨[last], ?_, ?_⟩
      · simp [heq, h.ports i hi]
      · intro l hl
        rw [List.mem_singleton.mp hl]
        omega
    · rcases ih (i + 1) (by omega) with ⟨reads, hrest, hreads⟩
      refine ⟨last :: reads, ?_, ?_⟩
      · have hne : (d[i] == t) = false := by simpa using fun he => heq he.symm
        simp only [heq, decide_false, hrest, hne, Bool.false_eq_true, if_false, Option.map_some]
        cases (d.drop (i + 1)).idxOf? t with
        | none => rfl
        | some k =>
          simp only [Option.map_some]
          congr 3
          omega
      · intro l hl
        rcases List.mem_cons.mp hl with rfl | hl
        · omega
        · exact hreads l hl

/-- `bus_lookup` ends, with the answer of the directory. -/
theorem Bus.Holds.lookup {fuel : Nat} (h : b.Holds d) (ht : Spells name 0 t)
    (hfuel : nameMax ≤ fuel) :
    ∃ reads, busLookup fuel name b = some (d.lookup t, reads) ∧ ∀ last ∈ reads, last < nameMax := by
  rcases h.lookupFrom ht hfuel 0 d.length (Nat.zero_add _) with ⟨reads, heq, hreads⟩
  refine ⟨reads, ?_, hreads⟩
  rw [busLookup, h.numServices, heq, List.drop_zero, Directory.lookup]
  cases d.idxOf? t with
  | none => rfl
  | some k => simp only [Nat.zero_add]

/-- The calls after the first `c`. -/
theorem Bus.Holds.registerAll (h : b.Holds d) (names : List CString) {c : Nat}
    (hc : d.length = min c maxServices) :
    (registerAll names b).1 = portsFrom c names.length ∧
      (registerAll names b).2.Holds
        (d ++ (names.map fun n => n.text.take 31).take (maxServices - d.length)) := by
  induction names generalizing b d c with
  | nil =>
    refine ⟨rfl, ?_⟩
    rw [List.map_nil, List.take_nil, List.append_nil]
    exact h
  | cons n names ih =>
    have hports : portsFrom c (n :: names).length =
        (if c < maxServices then (c : Int) else -1) :: portsFrom (c + 1) names.length := by
      simp [portsFrom, List.range'_succ]
    rw [hports, Orchid.registerAll, List.map_cons]
    by_cases hroom : c < maxServices
    · rcases h.register (by omega : d.length < maxServices) n.spells with ⟨hport, hholds⟩
      have hlen : (d ++ [n.text.take 31]).length = min (c + 1) maxServices := by
        rw [List.length_append, List.length_singleton]
        omega
      rcases ih hholds hlen with ⟨hrest, hall⟩
      refine ⟨?_, ?_⟩
      · rw [if_pos hroom, ← hrest]
        simp only
        rw [hport, show d.length = c by omega]
      · have hleft : maxServices - d.length = maxServices - (d ++ [n.text.take 31]).length + 1 := by
          rw [hlen]
          omega
        rw [hleft, List.take_succ_cons, List.append_cons]
        exact hall
    · -- the directory is full
      have hfull : d.length = maxServices := by omega
      rcases ih h (by omega : d.length = min (c + 1) maxServices) with ⟨hrest, hall⟩
      rw [h.register_full hfull]
      refine ⟨?_, ?_⟩
      · rw [if_neg hroom, ← hrest]
      · rw [hfull, Nat.sub_self, List.take_zero] at hall ⊢
        exact hall

end Holds

/-- The bus is a directory in which the first registration of a name counts.
Ports are handed out in order, to the first `MAX_SERVICES` calls; all later
calls fail and change nothing. A lookup ends with the port of the earliest
successful registration of exactly that name, and reads no slot beyond its
name. -/
theorem bus_firstWins (names : List CString) (hnames : ∀ n ∈ names, n.text.length ≤ 31) :
    (registerAll names bootBus).1 =
        (List.range names.length).map (fun i => if i < maxServices then (i : Int) else -1) ∧
      (∀ port ∈ (registerAll names bootBus).1, port < maxPorts) ∧
      (∀ n : CString, maxServices ≤ names.length →
        busRegister n.byte (registerAll names bootBus).2 = (-1, (registerAll names bootBus).2)) ∧
      ∀ (n : CString) (fuel : Nat), n.text.length ≤ 31 → nameMax ≤ fuel →
        ∃ reads, busLookup fuel n.byte (registerAll names bootBus).2 =
            some (Directory.lookup ((names.take maxServices).map CString.text) n.text, reads) ∧
          ∀ last ∈ reads, last ≤ nameMax - 1 := by
  rcases holds_bootBus.registerAll names (c := 0) rfl with ⟨hports, hholds⟩
  -- no name is cut
  have htexts : names.map (fun n => n.text.take 31) = names.map CString.text := by
    apply List.map_congr_left
    intro n hn
    exact List.take_of_length_le (hnames n hn)
  rw [htexts, List.nil_append, List.length_nil, Nat.sub_zero, ← List.map_take] at hholds
  have hreturned : (registerAll names bootBus).1 =
      (List.range names.length).map (fun i => if i < maxServices then (i : Int) else -1) := by
    rw [hports, portsFrom, List.range_eq_range']
  refine ⟨hreturned, ?_, ?_, ?_⟩
  · intro port hport
    rw [hreturned] at hport
    rcases List.mem_map.mp hport with ⟨i, -, rfl⟩
    unfold maxServices maxPorts
    split
    · omega
    · decide
  · intro n hfull
    apply hholds.register_full
    rw [List.length_map, List.length_take]
    omega
  · intro n fuel _ hfuel
    rcases hholds.lookup n.spells hfuel with ⟨reads, heq, hreads⟩
    exact ⟨reads, heq, fun last hlast => Nat.le_sub_one_of_lt (hreads last hlast)⟩

/-- The name `c`. -/
def oneLetter (c : UInt8) (hc : c ≠ 0) : CString :=
  ⟨fun i => if i = 0 then c else 0, [c], hc, rfl, rfl⟩

/-- Two registrations of `a`, and then one of `b`. -/
theorem bus_firstWins_twice : ∃ reads,
    busLookup 32 (oneLetter 98 (by decide)).byte (registerAll [oneLetter 97 (by decide),
      oneLetter 97 (by decide), oneLetter 98 (by decide)] bootBus).2 = some (2, reads) := by
  have hshort : ∀ n ∈ [oneLetter 97 (by decide), oneLetter 97 (by decide),
      oneLetter 98 (by decide)], n.text.length ≤ 31 := by
    intro n hn
    simp only [List.mem_cons, List.not_mem_nil, or_false] at hn
    rcases hn with rfl | rfl | rfl
    all_goals decide
  rcases (bus_firstWins _ hshort).2.2.2 (oneLetter 98 (by decide)) 32 (by decide) (by decide) with
    ⟨reads, heq, -⟩
  exact ⟨reads, heq⟩

/-! ## Long names -/

/-- `bus_lookup` returns the port for the name. No comparison takes more than `NAME_MAX`
rounds. -/
def Bus.Resolves (b : Bus) (n : CString) (port : Int) : Prop :=
  ∃ reads, busLookup nameMax n.byte b = some (port, reads)

theorem Bus.Holds.resolves_iff {b : Bus} {d : Directory} (h : b.Holds d) {n : CString}
    {port : Int} : b.Resolves n port ↔ port = d.lookup n.text := by
  rcases h.lookup n.spells (Nat.le_refl nameMax) with ⟨reads, hlookup, _⟩
  constructor
  · rintro ⟨reads', hport⟩
    rw [hlookup, Option.some.injEq, Prod.mk.injEq] at hport
    exact hport.1.symm
  · rintro rfl
    exact ⟨reads, hlookup⟩

/-- After any calls the bus holds the first `MAX_SERVICES` names, each cut to 31
characters. -/
theorem holds_registerAll (names : List CString) : (registerAll names bootBus).2.Holds
    ((names.take maxServices).map fun n => n.text.take 31) := by
  have hholds := (holds_bootBus.registerAll names (c := 0) rfl).2
  rwa [List.nil_append, List.length_nil, Nat.sub_zero, ← List.map_take] at hholds

theorem registerAll_port (names : List CString) {i : Nat} (hi : i < names.length) :
    (registerAll names bootBus).1[i]? = some (if i < maxServices then (i : Int) else -1) := by
  rw [(holds_bootBus.registerAll names (c := 0) rfl).1, portsFrom, List.getElem?_map,
    List.getElem?_range' hi]
  simp

/-- The port of a name is the place where it stands first. -/
theorem Directory.lookup_eq_iff {d : Directory} {t : List UInt8} {i : Nat} :
    d.lookup t = i ↔ d[i]? = some t ∧ ∀ j < i, d[j]? ≠ some t := by
  have hplace : d.lookup t = i ↔ d.idxOf? t = some i := by
    unfold lookup
    cases d.idxOf? t with
    | none => simp
    | some k => simp
  rw [hplace, List.idxOf?, List.findIdx?_eq_some_iff_getElem]
  constructor
  · rintro ⟨hi, hit, hfirst⟩
    refine ⟨?_, ?_⟩
    · rw [List.getElem?_eq_getElem hi, eq_of_beq hit]
    · intro j hj hjt
      rcases List.getElem?_eq_some_iff.mp hjt with ⟨_, hjt⟩
      exact hfirst j hj (beq_iff_eq.mpr hjt)
  · rintro ⟨hit, hfirst⟩
    rcases List.getElem?_eq_some_iff.mp hit with ⟨hi, hit⟩
    refine ⟨hi, beq_iff_eq.mpr hit, ?_⟩
    intro j hj hjt
    apply hfirst j hj
    rw [List.getElem?_eq_getElem (Nat.lt_trans hj hi), eq_of_beq hjt]

/-- No slot spells a text that long. -/
theorem Bus.Holds.lookup_long {b : Bus} {d : Directory} (h : b.Holds d) {t : List UInt8}
    (hlong : nameMax ≤ t.length) : d.lookup t = -1 := by
  have hmem : t ∉ d := fun hmem => absurd (h.short t hmem) (by omega)
  rw [Directory.lookup, List.idxOf?_eq_none_iff.mpr hmem]

/-- The first 31 characters of a registered name lead to its port if and only if no name
registered before begins with them. -/
theorem resolves_cut_iff (names : List CString) {n m : CString} {i : Nat}
    (hn : names[i]? = some n) (hroom : i < maxServices) (hm : m.text = n.text.take 31) :
    (registerAll names bootBus).2.Resolves m i ↔
      ∀ j < i, ∀ n', names[j]? = some n' → n'.text.take 31 ≠ n.text.take 31 := by
  have hslot : ∀ j ≤ i, ((names.take maxServices).map fun n => n.text.take 31)[j]? =
      names[j]?.map fun n => n.text.take 31 := by
    intro j hj
    rw [List.getElem?_map, List.getElem?_take_of_lt (by omega)]
  rw [(holds_registerAll names).resolves_iff, hm, eq_comm, Directory.lookup_eq_iff,
    hslot i (Nat.le_refl i), hn]
  constructor
  · rintro ⟨_, hfirst⟩ j hj n' hn' heq
    apply hfirst j hj
    rw [hslot j (Nat.le_of_lt hj), hn', ← heq]
    rfl
  · intro hfirst
    refine ⟨rfl, ?_⟩
    intro j hj hjt
    rw [hslot j (Nat.le_of_lt hj)] at hjt
    rcases Option.map_eq_some_iff.mp hjt with ⟨n', hn', heq⟩
    exact hfirst j hj n' hn' heq

/-- Names of 32 characters or more are confused if and only if their registration does not
fail: a registered one is not found, and its first 31 characters lead to its port unless
they led to an earlier one. -/
theorem bus_longName_iff (names : List CString) (n : CString) {i : Nat} {port : Int}
    (hn : names[i]? = some n) (hport : (registerAll names bootBus).1[i]? = some port)
    (hlong : 32 ≤ n.text.length) :
    ((port ≠ -1 →
        (∃ found, (registerAll names bootBus).2.Resolves n found ∧ found ≠ -1) ∧
        ∀ m : CString, m.text ≠ n.text → ¬ (registerAll names bootBus).2.Resolves m port) ↔
      port = -1) ∧
    (∀ found, (registerAll names bootBus).2.Resolves n found ↔ found = -1) ∧
    (port ≠ -1 → ∀ m : CString, m.text = n.text.take 31 →
      ((registerAll names bootBus).2.Resolves m port ↔
        ∀ j < i, ∀ n', names[j]? = some n' → n'.text.take 31 ≠ n.text.take 31)) := by
  have hholds := holds_registerAll names
  have hnone : ∀ found, (registerAll names bootBus).2.Resolves n found ↔ found = -1 := by
    intro found
    rw [hholds.resolves_iff, hholds.lookup_long hlong]
  refine ⟨⟨?_, ?_⟩, hnone, ?_⟩
  · intro hclaim
    by_contra hne
    rcases (hclaim hne).1 with ⟨found, hfound, hsome⟩
    exact hsome ((hnone found).mp hfound)
  · intro hfailed hne
    exact absurd hfailed hne
  · intro hne m hm
    have hi : i < names.length := (List.getElem?_eq_some_iff.mp hn).1
    rw [registerAll_port names hi, Option.some.injEq] at hport
    by_cases hroom : i < maxServices
    · rw [if_pos hroom] at hport
      rw [← hport]
      exact resolves_cut_iff names hn hroom hm
    · rw [if_neg hroom] at hport
      exact absurd hport.symm hne

/-- The character `c`, `k` times. -/
def repeated (c : UInt8) (hc : c ≠ 0) (k : Nat) : CString where
  byte i := if i < k then c else 0
  text := List.replicate k c
  spells := by
    have hfrom : ∀ r j, j + r = k → Spells (fun i => if i < k then c else 0) j (List.replicate r c) := by
      intro r
      induction r with
      | zero =>
        intro j hj
        exact if_neg (by omega)
      | succ r ih =>
        intro j hj
        exact ⟨hc, if_pos (by omega), ih (j + 1) (by omega)⟩
    exact hfrom k 0 (Nat.zero_add k)

/-- The name of 32 letters that finds no room in a full directory. -/
theorem bus_longName_full : ∃ names : List CString,
    (registerAll names bootBus).1[32]? = some (-1) ∧
    (∀ found, (registerAll names bootBus).2.Resolves (repeated 97 (by decide) 32) found ↔
      found = -1) := by
  let names := List.replicate 33 (repeated 97 (by decide) 32)
  have hport : (registerAll names bootBus).1[32]? = some (-1) := by
    rw [registerAll_port names (by simp [names])]
    rfl
  have hlong : 32 ≤ (repeated 97 (by decide) 32).text.length := by simp [repeated]
  exact ⟨names, hport, (bus_longName_iff names _ (by simp [names]) hport hlong).2.1⟩

/-- The name of 32 letters is registered. It is not found, and 31 of the letters lead to
its port. -/
theorem bus_longName_confused :
    (registerAll [repeated 97 (by decide) 32] bootBus).1 = [0] ∧
    (registerAll [repeated 97 (by decide) 32] bootBus).2.Resolves
      (repeated 97 (by decide) 32) (-1) ∧
    (repeated 97 (by decide) 31).text ≠ (repeated 97 (by decide) 32).text ∧
    (registerAll [repeated 97 (by decide) 32] bootBus).2.Resolves
      (repeated 97 (by decide) 31) 0 := by
  have hholds := holds_registerAll [repeated 97 (by decide) 32]
  refine ⟨?_, ?_, ?_, ?_⟩
  · exact (holds_bootBus.registerAll _ (c := 0) rfl).1
  · rw [hholds.resolves_iff, hholds.lookup_long (by simp [repeated, nameMax])]
  · simp [repeated]
  · apply (resolves_cut_iff _ (n := repeated 97 (by decide) 32) rfl (by decide) (by simp [repeated])).mpr
    intro j hj
    exact absurd hj (Nat.not_lt_zero j)

end Orchid
