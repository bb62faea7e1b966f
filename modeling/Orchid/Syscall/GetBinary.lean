import Orchid.Syscall.UserBytes
import Orchid.Core.CString

/-! # Fetching an embedded binary

A model of `SYS_get_binary` in `kernel/syscalls.c`. The name is fetched with a
copy of 31 bytes, whatever its length, ended with a zero and compared with the
names of the table. So the call needs 31 mapped bytes, and a shorter name at the
end of the mapped region is not found.
-/

namespace Orchid

open ByteMem Function

/-! ## Model -/

/-- An entry of `embedded_binaries`. -/
structure Binary where
  name : CString
  start : Nat
  stop : Nat

/-- `(size_t)(end - start)`. -/
def Binary.size (b : Binary) : Nat := b.stop - b.start

/-- Where the linker placed the two binaries, and where the call has its `name` array. -/
structure BinaryLayout where
  initStart : Nat
  initEnd : Nat
  shellStart : Nat
  shellEnd : Nat
  name : Nat
  initSmall : initEnd - initStart < 2 ^ 63
  shellSmall : shellEnd - shellStart < 2 ^ 63
  initApart : initEnd ≤ name ∨ name + 32 ≤ initStart
  shellApart : shellEnd ≤ name ∨ name + 32 ≤ shellStart

/-- `embedded_binaries`. -/
def embeddedBinaries (k : BinaryLayout) : List Binary :=
  [⟨CString.ofList (['i', 'n', 'i', 't'].map ascii) (ne_zero_of_all (by decide)),
      k.initStart, k.initEnd⟩,
    ⟨CString.ofList (['s', 'h', 'e', 'l', 'l'].map ascii) (ne_zero_of_all (by decide)),
      k.shellStart, k.shellEnd⟩]

/-- `strcmp`, from index `j` on. A `char` is signed. -/
def strcmp (a b : Nat → UInt8) : Nat → Nat → Option Int
  | 0, _ => none
  | fuel + 1, j =>
    if a j ≠ 0 ∧ a j = b j then strcmp a b fuel (j + 1)
    else some ((a j).toInt8.toInt - (b j).toInt8.toInt)

/-- `(uint64_t)-2`. -/
def notCopied : Nat := 2 ^ 64 - 2

/-- The branch for a binary whose name matches: `syscall_retval`, and what is left. -/
def deliver (pml4Phys : Option Nat) (buf max : Nat) (b : Binary) (s : CopyState) :
    Nat × CopyState :=
  if b.size ≤ max then
    let (copied, s) := copyToUser pml4Phys buf b.start b.size s
    (if copied then b.size else notCopied, s)
  else (notCopied, s)

/-- The loop over the table. There is no result if a comparison leaves the 32 bytes of the
name. -/
def serveBinary (pml4Phys : Option Nat) (name buf max : Nat) :
    List Binary → CopyState → Option (Nat × CopyState)
  | [], s => some (minusOne, s)
  | b :: rest, s =>
    match strcmp (fun i => s.kernel (name + i)) b.name.byte 32 0 with
    | none => none
    | some r =>
      if r = 0 then some (deliver pml4Phys buf max b s)
      else serveBinary pml4Phys name buf max rest s

/-- `SYS_get_binary`, with `current_process->pml4_phys` passed in. -/
def sysGetBinary (k : BinaryLayout) (pml4Phys : Option Nat) (uname buf max : Nat) (s : CopyState) :
    Option (Nat × CopyState) :=
  let (copied, s) := copyFromUser pml4Phys k.name uname 31 s
  if copied then
    serveBinary pml4Phys k.name buf max (embeddedBinaries k)
      { s with kernel := update s.kernel (k.name + 31) 0 }
  else some (minusOne, s)

/-! ## Comparing names -/

theorem toInt8_sub_eq_zero_iff (c d : UInt8) : c.toInt8.toInt - d.toInt8.toInt = 0 ↔ c = d := by
  rw [sub_eq_zero, Int8.toInt_inj]
  constructor
  · intro h
    exact congrArg Int8.toUInt8 h
  · intro h
    rw [h]

/-- The comparison ends with the shorter of the two, and tells whether they are the same. -/
theorem strcmp_spec {a b : Nat → UInt8} {fuel j : Nat} {t u : List UInt8} (ha : Spells a j t)
    (hb : Spells b j u) (hfuel : t.length < fuel) :
    ∃ r, strcmp a b fuel j = some r ∧ (r = 0 ↔ t = u) := by
  induction t generalizing j u fuel with
  | nil =>
    rcases Nat.exists_eq_succ_of_ne_zero (Nat.ne_of_gt hfuel) with ⟨fuel, rfl⟩
    have haj : a j = 0 := ha
    refine ⟨_, if_neg (fun h => h.1 haj), ?_⟩
    rw [toInt8_sub_eq_zero_iff, haj]
    cases u with
    | nil =>
      have hbj : b j = 0 := hb
      simp [hbj]
    | cons d u => simp [hb.2.1, Ne.symm hb.1]
  | cons c t ih =>
    rcases Nat.exists_eq_succ_of_ne_zero (Nat.ne_of_gt (Nat.zero_lt_of_lt hfuel)) with ⟨fuel, rfl⟩
    rw [List.length_cons] at hfuel
    have hrest : t.length < fuel := by omega
    cases u with
    | nil =>
      have hbj : b j = 0 := hb
      have hne : a j ≠ b j := by
        rw [ha.2.1, hbj]
        exact ha.1
      refine ⟨_, if_neg (fun h => hne h.2), ?_⟩
      rw [toInt8_sub_eq_zero_iff]
      exact iff_of_false hne (List.cons_ne_nil c t)
    | cons d u =>
      by_cases hcd : c = d
      · rcases ih ha.2.2 hb.2.2 hrest with ⟨r, hr, hiff⟩
        refine ⟨r, ?_, ?_⟩
        · rw [strcmp, if_pos ⟨by rw [ha.2.1]; exact ha.1, by rw [ha.2.1, hb.2.1, hcd]⟩]
          exact hr
        · rw [hiff, hcd, List.cons.injEq, and_iff_right rfl]
      · have hne : a j ≠ b j := by
          rw [ha.2.1, hb.2.1]
          exact hcd
        refine ⟨_, if_neg (fun h => hne h.2), ?_⟩
        rw [toInt8_sub_eq_zero_iff]
        exact iff_of_false hne (fun h => hcd (List.cons.inj h).1)

/-- The first binary of the name is delivered. -/
theorem serveBinary_eq {pml4Phys : Option Nat} {name : Nat} {s : CopyState} {t : List UInt8}
    (ht : Spells (fun i => s.kernel (name + i)) 0 t) (hlength : t.length < 32) (buf max : Nat)
    (bs : List Binary) :
    serveBinary pml4Phys name buf max bs s = some
      (match bs.find? fun b => t = b.name.text with
        | none => (minusOne, s)
        | some b => deliver pml4Phys buf max b s) := by
  induction bs with
  | nil => rfl
  | cons b bs ih =>
    rcases strcmp_spec ht b.name.spells hlength with ⟨r, hr, hiff⟩
    rw [serveBinary, hr]
    by_cases heq : t = b.name.text
    · rw [List.find?_cons_of_pos (by simpa using heq)]
      simp only [hiff.mpr heq, if_true]
    · rw [List.find?_cons_of_neg (by simpa using heq)]
      have hne : r ≠ 0 := fun h => heq (hiff.mp h)
      simp only [if_neg hne, ih]

/-! ## The call -/

/-- A name in user memory, with its terminator. -/
structure NameAt (mem : ByteMem) (a uname : Nat) (t : List UInt8) : Prop where
  short : t.length ≤ 31
  mapped : AllMapped mem a uname (t.length + 1)
  spells : Spells (fun i => mem (userVirtToPhys mem a (uname + i))) 0 t

/-- A buffer in user memory: its pages are mapped to different frames, none of which holds
a table. -/
structure BufferAt (mem : ByteMem) (a buf len : Nat) : Prop where
  mapped : AllMapped mem a buf len
  apart : ApartFromTables mem a buf len
  distinct : DistinctFrames mem a buf len
  nowrap : buf + len < 2 ^ 64

theorem BufferAt.mono {mem : ByteMem} {a buf len len' : Nat} (h : BufferAt mem a buf len)
    (hle : len' ≤ len) : BufferAt mem a buf len' where
  mapped v hlo hhi := h.mapped v hlo (by omega)
  apart v hlo hhi := h.apart v hlo (by omega)
  distinct v hlo hhi w hlo' hhi' := h.distinct v hlo (by omega) w hlo' (by omega)
  nowrap := by
    have := h.nowrap
    omega

section Call

variable {a uname buf max : Nat} {s : CopyState} {t : List UInt8} {k : BinaryLayout}

/-- What a delivered binary leaves in the buffer: its contents, and nothing elsewhere. -/
structure Delivered (a buf : Nat) (b : Binary) (s s' : CopyState) : Prop where
  bytes : ∀ i < b.size, s'.mem (userVirtToPhys s'.mem a (buf + i)) = s.kernel (b.start + i)
  others : ∀ x, (∀ i < b.size, x ≠ userVirtToPhys s.mem a (buf + i)) → s'.mem x = s.mem x

/-- What the call is for: the binary of the name if there is one and it fits. -/
def Serves (k : BinaryLayout) (a buf max : Nat) (t : List UInt8) (s : CopyState)
    (r : Nat × CopyState) : Prop :=
  match (embeddedBinaries k).find? fun b => t = b.name.text with
  | none => r.1 = minusOne ∧ r.2.mem = s.mem
  | some b =>
    if b.size ≤ max then r.1 = b.size ∧ Delivered a buf b s r.2
    else r.1 = notCopied ∧ r.2.mem = s.mem

theorem deliver_of_room {b : Binary} (hnz : FramesNonzero s.mem a)
    (hbuf : BufferAt s.mem a buf max) (hroom : b.size ≤ max) :
    (deliver (some a) buf max b s).1 = b.size ∧
      Delivered a buf b s (deliver (some a) buf max b s).2 := by
  have hsmall := hbuf.mono hroom
  rcases copyOut_keeps b.start hnz hsmall.nowrap hsmall.apart with ⟨hiff, hsame, -⟩
  have hcopied : (copyToUser (some a) buf b.start b.size s).1 = true := hiff.mpr hsmall.mapped
  have hdeliver : deliver (some a) buf max b s =
      (b.size, (copyToUser (some a) buf b.start b.size s).2) := by
    rw [deliver, if_pos hroom]
    simp only [hcopied, if_true]
  rw [hdeliver]
  refine ⟨rfl, ?_, ?_⟩
  · intro i hi
    rw [show userVirtToPhys (copyToUser (some a) buf b.start b.size s).2.mem a (buf + i) =
      userVirtToPhys s.mem a (buf + i) from hsame.userVirtToPhys_eq _]
    exact copyOut_bytes hnz hsmall.nowrap hsmall.apart hsmall.distinct hsmall.mapped hi
  · intro x hx
    exact copyOut_frame hnz hsmall.nowrap hsmall.apart fun i hi _ => hx i hi

/-- The sizes of the binaries are none of the error codes, and the name is outside them. -/
theorem binary_of_mem {b : Binary} (hb : b ∈ embeddedBinaries k) :
    b.size < 2 ^ 63 ∧ ∀ i < b.size, b.start + i < k.name ∨ k.name + 32 ≤ b.start + i := by
  have hi := k.initApart
  have hs := k.shellApart
  rcases List.mem_cons.mp hb with rfl | hb
  · refine ⟨k.initSmall, ?_⟩
    intro i hlt
    unfold Binary.size at hlt
    dsimp only at hlt ⊢
    omega
  · rw [List.mem_singleton.mp hb]
    refine ⟨k.shellSmall, ?_⟩
    intro i hlt
    unfold Binary.size at hlt
    dsimp only at hlt ⊢
    omega

/-- The array `name` spells the name that was fetched. -/
theorem fetched_spells {s₁ : CopyState} (hname : NameAt s.mem a uname t)
    (hbytes : ∀ i < 31, s₁.kernel (k.name + i) = s.mem (userVirtToPhys s.mem a (uname + i))) :
    Spells (fun i => update s₁.kernel (k.name + 31) 0 (k.name + i)) 0 t := by
  have hshort := hname.short
  have hzero := hname.spells.terminated
  apply hname.spells.congr
  intro i _ hi
  rw [Nat.zero_add] at hi hzero
  by_cases hlast : i = 31
  · -- a name of 31 characters ends where the kernel puts its zero
    have hlength : t.length = 31 := by omega
    rw [hlength] at hzero
    rw [hlast, hzero]
    exact update_self ..
  · rw [update_of_ne (by omega)]
    exact hbytes i (by omega)

/-- With 31 mapped bytes the name is fetched, and nothing but the array changes. -/
theorem sysGetBinary_fetched (hnz : FramesNonzero s.mem a) (hname : NameAt s.mem a uname t)
    (hnowrap : uname + 31 < 2 ^ 64) (hmapped : AllMapped s.mem a uname 31) :
    ∃ s₁ : CopyState, s₁.mem = s.mem ∧ Spells (fun i => s₁.kernel (k.name + i)) 0 t ∧
      (∀ x, x < k.name ∨ k.name + 32 ≤ x → s₁.kernel x = s.kernel x) ∧
      sysGetBinary k (some a) uname buf max s =
        serveBinary (some a) k.name buf max (embeddedBinaries k) s₁ := by
  rcases copyIn_spec k.name hnz hnowrap with ⟨hiff, hbytes⟩
  have hcopied : (copyFromUser (some a) k.name uname 31 s).1 = true := hiff.mpr hmapped
  rcases copyUser_moveIn a uname k.name 31 s with ⟨hmem, hkernel⟩
  refine ⟨{ (copyFromUser (some a) k.name uname 31 s).2 with
    kernel := update (copyFromUser (some a) k.name uname 31 s).2.kernel (k.name + 31) 0 },
    hmem, fetched_spells hname (hbytes hcopied), ?_, ?_⟩
  · intro x hx
    dsimp only
    rw [update_of_ne (by omega)]
    exact hkernel x (by omega)
  · simp only [sysGetBinary, hcopied, if_true]

/-- The call then does what it is for. -/
theorem sysGetBinary_of_mapped (hnz : FramesNonzero s.mem a) (hname : NameAt s.mem a uname t)
    (hnowrap : uname + 31 < 2 ^ 64) (hbuf : BufferAt s.mem a buf max)
    (hmapped : AllMapped s.mem a uname 31) :
    ∃ r, sysGetBinary k (some a) uname buf max s = some r ∧ Serves k a buf max t s r := by
  have hlength : t.length < 32 := Nat.lt_succ_of_le hname.short
  rcases sysGetBinary_fetched (k := k) hnz hname hnowrap hmapped with
    ⟨s₁, hmem, hspells, houtside, hcall⟩
  rw [hcall, serveBinary_eq hspells hlength]
  refine ⟨_, rfl, ?_⟩
  unfold Serves
  cases hfind : (embeddedBinaries k).find? fun b => t = b.name.text with
  | none => exact ⟨rfl, hmem⟩
  | some b =>
    dsimp only
    by_cases hroom : b.size ≤ max
    · rw [← hmem] at hnz hbuf
      rcases deliver_of_room hnz hbuf hroom with ⟨hsize, hbytes, hothers⟩
      rw [if_pos hroom]
      refine ⟨hsize, ?_, ?_⟩
      · -- the binaries are not where the name was fetched to
        intro i hi
        rw [hbytes i hi]
        exact houtside _ ((binary_of_mem (List.mem_of_find?_eq_some hfind)).2 i hi)
      · rwa [hmem] at hothers
    · rw [if_neg hroom, deliver, if_neg hroom]
      exact ⟨rfl, hmem⟩

/-- Without them it returns -1. -/
theorem sysGetBinary_of_not_mapped (hnz : FramesNonzero s.mem a) (hnowrap : uname + 31 < 2 ^ 64)
    (hnot : ¬ AllMapped s.mem a uname 31) :
    ∃ s', sysGetBinary k (some a) uname buf max s = some (minusOne, s') ∧ s'.mem = s.mem := by
  have hcopy : (copyFromUser (some a) k.name uname 31 s).1 = false := by
    rw [← Bool.not_eq_true]
    exact fun h => hnot ((copyIn_spec k.name hnz hnowrap).1.mp h)
  refine ⟨(copyFromUser (some a) k.name uname 31 s).2, ?_, ?_⟩
  · simp only [sysGetBinary, hcopy, Bool.false_eq_true, if_false]
  · exact (copyUser_moveIn a uname k.name 31 s).1

/-- A binary that is there is found if and only if 31 bytes are mapped at its name. -/
theorem getBinary_serves_iff (k : BinaryLayout) (hnz : FramesNonzero s.mem a)
    (hname : NameAt s.mem a uname t) (hnowrap : uname + 31 < 2 ^ 64)
    (hbuf : BufferAt s.mem a buf max) :
    (∃ r, sysGetBinary k (some a) uname buf max s = some r ∧ Serves k a buf max t s r) ↔
      AllMapped s.mem a uname 31 ∨ ∀ b ∈ embeddedBinaries k, t ≠ b.name.text := by
  by_cases hmapped : AllMapped s.mem a uname 31
  · exact iff_of_true (sysGetBinary_of_mapped hnz hname hnowrap hbuf hmapped) (.inl hmapped)
  · rw [or_iff_right hmapped]
    rcases sysGetBinary_of_not_mapped (k := k) hnz hnowrap hmapped with ⟨s', hcall, hmem⟩
    rw [hcall]
    constructor
    · rintro ⟨r, hr, hserves⟩ b hb heq
      cases hr
      -- neither a size nor the other error code is -1
      unfold Serves at hserves
      split at hserves
      · next hfind =>
        rw [List.find?_eq_none] at hfind
        exact hfind b hb (by simpa using heq)
      · next b' hfind =>
        have hsize := (binary_of_mem (List.mem_of_find?_eq_some hfind)).1
        unfold minusOne notCopied at hserves
        split at hserves
        · have := hserves.1
          omega
        · have := hserves.1
          omega
    · intro hnone
      refine ⟨_, rfl, ?_⟩
      have hfind : (embeddedBinaries k).find? (fun b => t = b.name.text) = none := by
        rw [List.find?_eq_none]
        intro b hb
        simpa using hnone b hb
      unfold Serves
      rw [hfind]
      exact ⟨rfl, hmem⟩

end Call

/-! ## A name in front of the end -/

/-- The text `init`. -/
def initText : List UInt8 := ['i', 'n', 'i', 't'].map ascii

/-- Binaries of 16 bytes each. -/
def twoBinaries : BinaryLayout where
  initStart := 0x100000
  initEnd := 0x100010
  shellStart := 0x100010
  shellEnd := 0x100020
  name := 0x200000
  initSmall := by decide
  shellSmall := by decide
  initApart := by decide
  shellApart := by decide

/-- Two mapped pages, with the name `init` at the offset in the second. -/
def namePage (off : Nat) : ByteMem :=
  store (twoPages 0x5000 0x6000) (0x6000 + off) (fun i => initText.getD i 0) 5

section NamePage

variable {off : Nat} (hoff : off + 5 ≤ 0x1000)

include hoff

theorem sameTables_namePage : SameTables 0x1000 (twoPages 0x5000 0x6000) (namePage off) := by
  apply sameTables_of_frame (f := 0x6000)
  · exact not_holdsTable_twoPages framePair_afterTables (by decide)
  · intro x hx
    unfold InPage at hx
    rw [namePage, store_apply, if_neg (by omega)]

theorem framesNonzero_namePage : FramesNonzero (namePage off) 0x1000 :=
  (sameTables_namePage hoff).framesNonzero
    (framesNonzero_twoPages framePair_afterTables (by decide) (by decide))

theorem allMapped_namePage {uaddr len : Nat} (hend : uaddr + len ≤ 0x2000) :
    AllMapped (namePage off) 0x1000 uaddr len := by
  rw [(sameTables_namePage hoff).allMapped_iff]
  intro v _ hv
  exact mapped_twoPages framePair_afterTables v (Nat.zero_le v) (by omega)

theorem nameAt_namePage : NameAt (namePage off) 0x1000 (0x1000 + off) initText where
  short := by decide
  mapped := by
    apply allMapped_namePage hoff
    have hlength : initText.length = 4 := rfl
    omega
  spells := by
    apply (CString.ofList initText (ne_zero_of_all (by decide))).spells.congr
    intro i _ hi
    have hlength : (CString.ofList initText (ne_zero_of_all (by decide))).text.length = 4 := rfl
    rw [(sameTables_namePage hoff).userVirtToPhys_eq, translate_twoPages framePair_afterTables
      (by omega), if_neg (by omega), namePage, store_apply,
      if_pos (by omega)]
    show initText.getD _ 0 = initText.getD i 0
    congr 1
    omega

theorem bufferAt_namePage : BufferAt (namePage off) 0x1000 0 0x1000 where
  mapped := allMapped_namePage hoff (by decide)
  apart := by
    intro v hlo hhi f hwalk
    rw [(sameTables_namePage hoff).walk_path] at hwalk
    rw [(sameTables_namePage hoff).holdsTable_iff]
    exact apart_twoPages framePair_afterTables (by decide) (by decide) 0 0x1000 v hlo hhi f hwalk
  distinct := by
    intro v hlo hhi w hlo' hhi' f hv hw
    rw [(sameTables_namePage hoff).walk_path] at hv hw
    exact distinct_twoPages framePair_afterTables (by decide) (by decide) v hlo hhi w hlo' hhi' f hv hw
  nowrap := by decide

end NamePage

/-- At the start of the second page the name is found. -/
theorem getBinary_serves_init : ∃ r,
    sysGetBinary twoBinaries (some 0x1000) 0x1000 0 0x1000 ⟨namePage 0, fun _ => 7, []⟩ = some r ∧
    Serves twoBinaries 0x1000 0 0x1000 initText ⟨namePage 0, fun _ => 7, []⟩ r := by
  have hoff : 0 + 5 ≤ 0x1000 := by decide
  have hserves := getBinary_serves_iff (s := ⟨namePage 0, fun _ => 7, []⟩) twoBinaries
    (framesNonzero_namePage hoff) (nameAt_namePage hoff) (by decide) (bufferAt_namePage hoff)
  exact hserves.mpr (.inl (allMapped_namePage hoff (by decide)))

/-- In the last five bytes of the page it is not, although it is there as a whole. -/
theorem getBinary_misses_init :
    FramesNonzero (namePage 0xFFB) 0x1000 ∧ NameAt (namePage 0xFFB) 0x1000 0x1FFB initText ∧
    BufferAt (namePage 0xFFB) 0x1000 0 0x1000 ∧
    (∃ b ∈ embeddedBinaries twoBinaries, b.name.text = initText ∧ b.size ≤ 0x1000) ∧
    ∃ s', sysGetBinary twoBinaries (some 0x1000) 0x1FFB 0 0x1000
      ⟨namePage 0xFFB, fun _ => 7, []⟩ = some (minusOne, s') := by
  have hoff : 0xFFB + 5 ≤ 0x1000 := by decide
  refine ⟨framesNonzero_namePage hoff, nameAt_namePage hoff, bufferAt_namePage hoff, ?_, ?_⟩
  · exact ⟨_, List.mem_cons_self, rfl, by decide⟩
  · have hnot : ¬ AllMapped (namePage 0xFFB) 0x1000 0x1FFB 31 := by
      intro hall
      -- the third page is not mapped
      have hmapped := hall 0x2000 (by decide) (by decide)
      rw [Mapped, (sameTables_namePage hoff).walk_path] at hmapped
      rcases Option.isSome_iff_exists.mp hmapped with ⟨c, hc⟩
      have hslot : ptIndex 0x2000 = 2 := rfl
      rcases frame_twoPages framePair_afterTables hc with
        ⟨-, hindex⟩ | ⟨-, hindex⟩
      · omega
      · omega
    rcases sysGetBinary_of_not_mapped (k := twoBinaries) (s := ⟨namePage 0xFFB, fun _ => 7, []⟩)
      (framesNonzero_namePage hoff) (by decide) hnot with ⟨s', hcall, -⟩
    exact ⟨s', hcall⟩

end Orchid
