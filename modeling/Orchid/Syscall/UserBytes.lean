import Orchid.Syscall.UserCopy

/-! # The bytes that a copy moves

`copy_to_user` and `copy_from_user` cut a range into the part on its first page,
whole pages and the part on its last page. For ranges of the lower half the cuts
do not show: a copy is one assignment for each byte, at the address that
`user_virt_to_phys` gives for it.

* A copy that succeeds has touched user memory only just if its range is in the
  lower half and its pages have the bits in their entries (`copies_userOnly_iff`).
* `copy_from_user` does not write to physical memory, and nothing more has to be
  assumed (`copyIn_spec`).
* `copy_to_user` may write to the tables that it walks. Its result is the same
  as that of `copy_from_user` if no frame of the range holds a table
  (`copyOut_spec`); a page that maps its own page table shows that this is
  needed (`copyToUser_cuts_itself_off`).
-/

namespace Orchid

open ByteMem Radix AddressSpace

/-! ## Translation -/

/-- The page of `v` is mapped. -/
def Mapped (mem : ByteMem) (a v : Nat) : Prop := (walk (child mem) a (path v)).isSome

/-- Every page of the range is mapped. -/
def AllMapped (mem : ByteMem) (a uaddr len : Nat) : Prop :=
  ∀ v, uaddr ≤ v → v < uaddr + len → Mapped mem a v

/-- No page is mapped to frame 0. -/
def FramesNonzero (mem : ByteMem) (a : Nat) : Prop :=
  ∀ v f, walk (child mem) a (path v) = some f → f ≠ 0

/-- The frame `f` holds a byte of one of the tables of `a`. -/
def HoldsTable (mem : ByteMem) (a f : Nat) : Prop :=
  ∃ p t x, p.length ≤ 3 ∧ walk (child mem) a p = some t ∧ InPage t x ∧ InPage f x

/-- No frame of the range holds a table. -/
def ApartFromTables (mem : ByteMem) (a uaddr len : Nat) : Prop :=
  ∀ v, uaddr ≤ v → v < uaddr + len → ∀ f, walk (child mem) a (path v) = some f →
    ¬ HoldsTable mem a f

/-- Different pages of the range have different frames. -/
def DistinctFrames (mem : ByteMem) (a uaddr len : Nat) : Prop :=
  ∀ v, uaddr ≤ v → v < uaddr + len → ∀ w, uaddr ≤ w → w < uaddr + len →
    ∀ f, walk (child mem) a (path v) = some f → walk (child mem) a (path w) = some f →
      v / 4096 = w / 4096

section Translation

variable {mem mem' : ByteMem} {a uaddr len v f : Nat}

theorem aligned_of_walk_path (h : walk (child mem) a (path v) = some f) : Aligned f := by
  rw [path, walk_append] at h
  rcases Option.bind_eq_some_iff.mp h with ⟨t, -, ht⟩
  rw [walk_singleton] at ht
  exact child_aligned ht

/-- The translation of an address: its frame and its place in the page. -/
theorem userVirtToPhys_of_walk (h : walk (child mem) a (path v) = some f) :
    userVirtToPhys mem a v = f + v % 4096 := by
  have halign := aligned_of_walk_path h
  have hoff : v &&& 0xFFF = v % 4096 := Nat.and_two_pow_sub_one_eq_mod v 12
  rw [userVirtToPhys, lookup_eq_walk, h]
  show f ||| (v &&& 0xFFF) = _
  rw [hoff]
  unfold Aligned at halign
  have hlow : f % 2 ^ 12 = 0 := halign
  exact Bits.or_eq_add hlow (Nat.mod_lt v (by omega))

theorem path_pageFloor (hv : v < 2 ^ 64) : path (pageFloor v) = path v := by
  rw [path_eq_iff]
  exact (pageOf_pageFloor (j := 0) hv (by omega)).symm

/-- A page with an address other than 0 is mapped there. -/
theorem walk_of_userVirtToPhys (h : userVirtToPhys mem a (pageFloor v) ≠ 0) (hv : v < 2 ^ 64) :
    walk (child mem) a (path v) = some (userVirtToPhys mem a (pageFloor v)) := by
  have hpath := path_pageFloor hv
  cases hwalk : walk (child mem) a (path v) with
  | none =>
    rw [userVirtToPhys, lookup_eq_walk, hpath, hwalk] at h
    exact absurd rfl h
  | some f =>
    rw [← hpath] at hwalk
    rw [userVirtToPhys_of_walk hwalk, pageFloor_of_lt hv]
    congr 1
    omega

/-- What a round of a copy asks for. -/
theorem userVirtToPhys_pageFloor (hnz : FramesNonzero mem a) (hv : v < 2 ^ 64) :
    (userVirtToPhys mem a (pageFloor v) = 0 ∧ walk (child mem) a (path v) = none) ∨
      (userVirtToPhys mem a (pageFloor v) ≠ 0 ∧
        walk (child mem) a (path v) = some (userVirtToPhys mem a (pageFloor v))) := by
  by_cases hzero : userVirtToPhys mem a (pageFloor v) = 0
  · refine Or.inl ⟨hzero, ?_⟩
    cases hwalk : walk (child mem) a (path v) with
    | none => rfl
    | some f =>
      rw [← path_pageFloor hv] at hwalk
      rw [userVirtToPhys_of_walk hwalk] at hzero
      exact absurd (by omega) (hnz _ f hwalk)
  · exact Or.inr ⟨hzero, walk_of_userVirtToPhys hzero hv⟩

/-- Bytes of one page have one frame. -/
theorem walk_same_page {w : Nat} (h : v / 4096 = w / 4096) :
    walk (child mem) a (path v) = walk (child mem) a (path w) := by
  rw [(path_eq_iff v w).mpr]
  rw [pageOf, pageOf, h]

/-- Every walk from `a` goes as before. -/
def SameTables (a : Nat) (mem mem' : ByteMem) : Prop :=
  ∀ q : List (Fin 512), q.length ≤ 4 → walk (child mem') a q = walk (child mem) a q

/-- Writes to a frame that holds no table. -/
theorem sameTables_of_frame (hf : ¬ HoldsTable mem a f) (hmem : ∀ x, ¬ InPage f x → mem' x = mem x) :
    SameTables a mem mem' := by
  intro q hq
  apply walk_congr
  intro p j q' g hsplit hg
  apply child_congr
  intro x hx
  apply hmem
  intro hfx
  have hp : p.length ≤ 3 := by
    rw [hsplit, List.length_append, List.length_cons] at hq
    omega
  exact hf ⟨p, g, x, hp, hg, hx, hfx⟩

/-- They leave the entries of the page tables as they are. -/
theorem leafEntry_of_frame (hf : ¬ HoldsTable mem a f) (hmem : ∀ x, ¬ InPage f x → mem' x = mem x)
    (v : Nat) : leafEntry mem' a v = leafEntry mem a v := by
  have hlen := length_upperPath v
  rw [leafEntry, leafEntry, sameTables_of_frame hf hmem (upperPath v) (by omega)]
  cases ht : walk (child mem) a (upperPath v) with
  | none => rfl
  | some t =>
    have hpte : pte mem' t (ptSlot v) = pte mem t (ptSlot v) := by
      apply pte_congr
      intro x hx
      apply hmem
      intro hfx
      exact hf ⟨upperPath v, t, x, hlen.le, ht, hx, hfx⟩
    rw [Option.map_some, Option.map_some, hpte]

namespace SameTables

variable (h : SameTables a mem mem')

include h

theorem walk_path (v : Nat) : walk (child mem') a (path v) = walk (child mem) a (path v) :=
  h (path v) (length_path v).le

theorem trans {mem₂ : ByteMem} (h₂ : SameTables a mem' mem₂) : SameTables a mem mem₂ :=
  fun q hq => (h₂ q hq).trans (h q hq)

theorem framesNonzero (hnz : FramesNonzero mem a) : FramesNonzero mem' a := by
  intro v f hwalk
  rw [h.walk_path] at hwalk
  exact hnz v f hwalk

theorem allMapped_iff : AllMapped mem' a uaddr len ↔ AllMapped mem a uaddr len := by
  simp only [AllMapped, Mapped, h.walk_path]

theorem userVirtToPhys_eq (v : Nat) : userVirtToPhys mem' a v = userVirtToPhys mem a v := by
  rw [userVirtToPhys, userVirtToPhys, lookup_eq_walk, lookup_eq_walk, h.walk_path]

theorem holdsTable_iff : HoldsTable mem' a f ↔ HoldsTable mem a f := by
  unfold HoldsTable
  constructor
  · rintro ⟨p, t, x, hp, hwalk, hx⟩
    rw [h p (by omega)] at hwalk
    exact ⟨p, t, x, hp, hwalk, hx⟩
  · rintro ⟨p, t, x, hp, hwalk, hx⟩
    rw [← h p (by omega)] at hwalk
    exact ⟨p, t, x, hp, hwalk, hx⟩

end SameTables

end Translation

/-! ## The two loops -/

section Loops

variable {a uaddr kptr len : Nat} {s : CopyState}

/-- The first chunk of a range: it ends with the range or with its page. -/
structure Chunk (uaddr len chunk : Nat) : Prop where
  pos : 0 < chunk
  le : chunk ≤ len
  page : uaddr % 4096 + chunk ≤ 4096
  full : chunk < len → uaddr % 4096 + chunk = 4096

/-- A round on a range that does not wrap. -/
theorem copyUser_round (move : Nat → Nat → Nat → CopyState → CopyState) (kptr : Nat)
    (hnz : FramesNonzero s.mem a) (hlow : uaddr + len < 2 ^ 64) :
    (len = 0 ∧ copyUser move a uaddr kptr len s = (true, s)) ∨
    (0 < len ∧ ¬ Mapped s.mem a uaddr ∧ copyUser move a uaddr kptr len s = (false, s)) ∨
    ∃ chunk f visit, Chunk uaddr len chunk ∧ walk (child s.mem) a (path uaddr) = some f ∧
      copyUser move a uaddr kptr len s =
        copyUser move a (uaddr + chunk) (kptr + chunk) (len - chunk)
          (move (f + uaddr % 4096) kptr chunk { s with visits := visit :: s.visits }) := by
  have hu : uaddr < 2 ^ 64 := by omega
  rcases copyUser_cases move a uaddr kptr len s with
    ⟨hlen, heq⟩ | ⟨hlen, hzero, heq⟩ | ⟨chunk, phys, hpos, hle, hpage, hfull, hne, hphys, heq⟩
  · exact Or.inl ⟨hlen, heq⟩
  · rcases userVirtToPhys_pageFloor hnz hu with ⟨-, hnone⟩ | ⟨hne, -⟩
    · refine Or.inr (Or.inl ⟨by omega, ?_, heq⟩)
      rw [Mapped, hnone]
      exact Bool.false_ne_true
    · exact absurd hzero hne
  · rcases userVirtToPhys_pageFloor hnz hu with ⟨hzero, -⟩ | ⟨-, hwalk⟩
    · exact absurd hzero hne
    have hwrap : (uaddr + chunk) % 2 ^ 64 = uaddr + chunk := Nat.mod_eq_of_lt (by omega)
    rw [hwrap, hphys] at heq
    exact Or.inr (Or.inr ⟨chunk, _, _, ⟨hpos, hle, hpage, hfull⟩, hwalk, heq⟩)

/-- The addresses of a chunk are translated by its frame. -/
theorem Chunk.translate {mem : ByteMem} {chunk f i : Nat} (h : Chunk uaddr len chunk)
    (hwalk : walk (child mem) a (path uaddr) = some f) (hi : i < chunk) :
    walk (child mem) a (path (uaddr + i)) = some f ∧
      userVirtToPhys mem a (uaddr + i) = f + uaddr % 4096 + i := by
  have hpage := h.page
  have hpath : walk (child mem) a (path (uaddr + i)) = some f :=
    (walk_same_page (by omega)).trans hwalk
  refine ⟨hpath, ?_⟩
  rw [userVirtToPhys_of_walk hpath]
  omega

/-- The range without its first chunk. -/
theorem Chunk.allMapped_iff {mem : ByteMem} {chunk f : Nat} (h : Chunk uaddr len chunk)
    (hwalk : walk (child mem) a (path uaddr) = some f) :
    AllMapped mem a uaddr len ↔ AllMapped mem a (uaddr + chunk) (len - chunk) := by
  have hle := h.le
  constructor
  · intro hall v hlo hhi
    exact hall v (by omega) (by omega)
  · intro hrest v hlo hhi
    by_cases hv : v < uaddr + chunk
    · rcases Nat.exists_eq_add_of_le hlo with ⟨i, rfl⟩
      rw [Mapped, (h.translate hwalk (by omega)).1]
      rfl
    · exact hrest v (by omega) (by omega)

theorem allMapped_of_zero (mem : ByteMem) : AllMapped mem a uaddr 0 := by
  intro v hlo hhi
  omega

theorem not_allMapped {mem : ByteMem} (hlen : 0 < len) (h : ¬ Mapped mem a uaddr) :
    ¬ AllMapped mem a uaddr len :=
  fun hall => h (hall uaddr (Nat.le_refl _) (by omega))

/-- `copy_from_user`: it succeeds just if all pages are there, and then byte `i`
of the buffer is the byte at the translation of `uaddr + i`. -/
theorem copyIn_spec (kptr : Nat) (hnz : FramesNonzero s.mem a) (hlow : uaddr + len < 2 ^ 64) :
    ((copyUser moveIn a uaddr kptr len s).1 = true ↔ AllMapped s.mem a uaddr len) ∧
      ((copyUser moveIn a uaddr kptr len s).1 = true → ∀ i < len,
        (copyUser moveIn a uaddr kptr len s).2.kernel (kptr + i) =
          s.mem (userVirtToPhys s.mem a (uaddr + i))) := by
  -- induction on the bytes to go
  induction len using Nat.strong_induction_on generalizing uaddr kptr s with
  | _ len ih =>
    rcases copyUser_round moveIn kptr hnz hlow with
      ⟨rfl, heq⟩ | ⟨hlen, hnot, heq⟩ | ⟨chunk, f, visit, hchunk, hwalk, heq⟩
    · rw [heq]
      exact ⟨iff_of_true rfl (allMapped_of_zero s.mem), fun _ i hi => absurd hi (by omega)⟩
    · rw [heq]
      exact ⟨iff_of_false Bool.false_ne_true (not_allMapped hlen hnot),
        fun htrue => absurd htrue Bool.false_ne_true⟩
    · have hpos := hchunk.pos
      have hle := hchunk.le
      rw [heq]
      set s₁ := moveIn (f + uaddr % 4096) kptr chunk { s with visits := visit :: s.visits }
      have hmem : s₁.mem = s.mem := rfl
      rcases @ih (len - chunk) (by omega) (uaddr + chunk) s₁ (kptr + chunk) hnz (by omega) with
        ⟨hiff, hbytes⟩
      rw [hmem] at hiff hbytes
      refine ⟨hiff.trans (hchunk.allMapped_iff hwalk).symm, ?_⟩
      intro htrue i hi
      by_cases hin : i < chunk
      · -- the bytes of this round, which the later ones leave as they are
        rw [(copyUser_moveIn a (uaddr + chunk) (kptr + chunk) (len - chunk) s₁).2 _ (by omega)]
        show store s.kernel kptr (fun i => s.mem (f + uaddr % 4096 + i)) chunk (kptr + i) = _
        rw [store_apply, if_pos (by omega), (hchunk.translate hwalk hin).2,
          Nat.add_sub_cancel_left]
      · have hrest := hbytes htrue (i - chunk) (by omega)
        rw [show kptr + chunk + (i - chunk) = kptr + i by omega,
          show uaddr + chunk + (i - chunk) = uaddr + i by omega] at hrest
        exact hrest

/-- What a round of `copy_to_user` writes. -/
theorem moveOut_mem (phys kptr n : Nat) (s : CopyState) (x : Nat) :
    (moveOut phys kptr n s).mem x =
      if phys ≤ x ∧ x < phys + n then s.kernel (kptr + (x - phys)) else s.mem x :=
  store_apply s.mem phys _ n x

/-- It writes to its frame. -/
theorem Chunk.moveOut_outside {chunk f : Nat} (kptr : Nat) (visits : List Visit)
    (h : Chunk uaddr len chunk) (x : Nat) (hx : ¬ InPage f x) :
    (moveOut (f + uaddr % 4096) kptr chunk { s with visits := visits }).mem x = s.mem x := by
  have hpage := h.page
  rw [moveOut_mem, if_neg]
  unfold InPage at hx
  omega

theorem Chunk.notTable {chunk f : Nat} (h : Chunk uaddr len chunk)
    (hapart : ApartFromTables s.mem a uaddr len)
    (hwalk : walk (child s.mem) a (path uaddr) = some f) : ¬ HoldsTable s.mem a f := by
  have hpos := h.pos
  have hle := h.le
  exact hapart uaddr (Nat.le_refl _) (by omega) f hwalk

theorem Chunk.sameTables {chunk f : Nat} (kptr : Nat) (visits : List Visit) (h : Chunk uaddr len chunk)
    (hapart : ApartFromTables s.mem a uaddr len)
    (hwalk : walk (child s.mem) a (path uaddr) = some f) :
    SameTables a s.mem
      (moveOut (f + uaddr % 4096) kptr chunk { s with visits := visits }).mem :=
  sameTables_of_frame (h.notTable hapart hwalk) (h.moveOut_outside kptr visits)

theorem ApartFromTables.rest {mem mem' : ByteMem} {chunk : Nat}
    (h : ApartFromTables mem a uaddr len) (hsame : SameTables a mem mem') (hle : chunk ≤ len) :
    ApartFromTables mem' a (uaddr + chunk) (len - chunk) := by
  intro v hlo hhi f hwalk
  rw [hsame.walk_path] at hwalk
  rw [hsame.holdsTable_iff]
  exact h v (by omega) (by omega) f hwalk

/-! ### The entries that a copy meets -/

/-- The entries of a range: that of its first page, and those of the rest. -/
theorem Chunk.hasFlags_iff {mem : ByteMem} {chunk : Nat} (h : Chunk uaddr len chunk) (flags : Nat)
    (hlow : uaddr + len ≤ 2 ^ 47) :
    (∀ v, uaddr ≤ v → v < uaddr + len → HasFlags flags (leafEntry mem a v)) ↔
      (∀ v, uaddr + chunk ≤ v → v < uaddr + chunk + (len - chunk) →
        HasFlags flags (leafEntry mem a v)) ∧
      HasFlags flags (leafEntry mem a (pageFloor uaddr)) := by
  have hpos := h.pos
  have hle := h.le
  have hpage := h.page
  have hfirst : ∀ j < chunk, leafEntry mem a (uaddr + j) = leafEntry mem a (pageFloor uaddr) :=
    fun j hj => leafEntry_congr (pageOf_pageFloor (by omega) (by omega))
  constructor
  · intro hall
    refine ⟨fun v hv hv' => hall v (by omega) (by omega), ?_⟩
    rw [← hfirst 0 hpos]
    exact hall uaddr (Nat.le_refl _) (by omega)
  · rintro ⟨hrest, hflags⟩ v hv hv'
    by_cases hin : v < uaddr + chunk
    · rcases Nat.exists_eq_add_of_le hv with ⟨j, rfl⟩
      rw [hfirst j (by omega)]
      exact hflags
    · exact hrest v (by omega) (by omega)

/-- The rounds of a copy that succeeds meet entries with the bits of `flags` exactly if all entries
of its range have them at its start. -/
def MeetsLeaves (move : Nat → Nat → Nat → CopyState → CopyState) (flags a uaddr kptr len : Nat)
    (s : CopyState) : Prop :=
  ∃ new, (copyUser move a uaddr kptr len s).2.visits = new ++ s.visits ∧
    ((copyUser move a uaddr kptr len s).1 = true →
      ((∀ v ∈ new, HasFlags flags v.leaf) ↔
        ∀ v, uaddr ≤ v → v < uaddr + len → HasFlags flags (leafEntry s.mem a v)))

/-- Where the rounds leave the entries of the page tables alone, a copy meets the entries that
were there at its start. `I` is what one round hands on to the next. -/
theorem copyUser_leaves {move : Nat → Nat → Nat → CopyState → CopyState}
    {I : CopyState → Nat → Nat → Prop} (flags : Nat)
    (hmove : ∀ p q n s, (move p q n s).visits = s.visits)
    (hround : ∀ s uaddr kptr len chunk visits, I s uaddr len → uaddr + len ≤ 2 ^ 47 →
      Chunk uaddr len chunk → userVirtToPhys s.mem a (pageFloor uaddr) ≠ 0 →
      let s₁ := move (userVirtToPhys s.mem a (pageFloor uaddr) + uaddr % 4096) kptr chunk
        { s with visits := visits }
      I s₁ (uaddr + chunk) (len - chunk) ∧ ∀ v, leafEntry s₁.mem a v = leafEntry s.mem a v)
    (hinv : I s uaddr len) (hlow : uaddr + len ≤ 2 ^ 47) :
    MeetsLeaves move flags a uaddr kptr len s := by
  unfold MeetsLeaves
  -- induction on the bytes to go
  induction len using Nat.strong_induction_on generalizing uaddr kptr s with
  | _ len ih =>
    rcases copyUser_cases move a uaddr kptr len s with
      ⟨hlen, heq⟩ | ⟨-, -, heq⟩ | ⟨chunk, phys, hpos, hle, hpage, hfull, hne, hphys, heq⟩
    · rw [heq]
      refine ⟨[], rfl, fun _ => ?_⟩
      simp only [List.not_mem_nil, false_implies, implies_true, true_iff]
      intro v hv hv'
      omega
    · rw [heq]
      refine ⟨[], rfl, ?_⟩
      simp
    · have hchunk : Chunk uaddr len chunk := ⟨hpos, hle, hpage, hfull⟩
      have hwrap : (uaddr + chunk) % 2 ^ 64 = uaddr + chunk := Nat.mod_eq_of_lt (by omega)
      set visit : Visit := ⟨uaddr, chunk, leafEntry s.mem a (pageFloor uaddr)⟩
      rw [heq, hwrap, hphys]
      rcases hround s uaddr kptr len chunk (visit :: s.visits) hinv hlow hchunk hne with
        ⟨hinv₁, hleaf⟩
      set s₁ := move (userVirtToPhys s.mem a (pageFloor uaddr) + uaddr % 4096) kptr chunk
        { s with visits := visit :: s.visits }
      rcases @ih (len - chunk) (by omega) (uaddr + chunk) (kptr + chunk) s₁ hinv₁ (by omega) with
        ⟨new, hvisits, hiff⟩
      refine ⟨new ++ [visit], ?_, ?_⟩
      · rw [hvisits, hmove]
        simp
      · intro htrue
        simp only [List.mem_append, List.mem_singleton, or_imp, forall_and, forall_eq, hiff htrue,
          hleaf]
        exact (hchunk.hasFlags_iff flags hlow).symm

/-- So what a copy touches can be told from the tables that it starts with. -/
theorem copyUser_userOnly_of_leaves {move : Nat → Nat → Nat → CopyState → CopyState} {flags : Nat}
    (hmove : ∀ p q n s, (move p q n s).visits = s.visits) (hnew : s.visits = [])
    (hleaves : uaddr + len ≤ 2 ^ 47 → MeetsLeaves move flags a uaddr kptr len s) :
    ((copyUser move a uaddr kptr len s).1 = true →
        UserOnly flags (copyUser move a uaddr kptr len s).2.visits) ↔
      (copyUser move a uaddr kptr len s).1 = false ∨ len = 0 ∨ (uaddr + len ≤ 2 ^ 47 ∧
        ∀ v, uaddr ≤ v → v < uaddr + len → HasFlags flags (leafEntry s.mem a v)) := by
  rw [copyUser_userOnly_iff hmove flags hnew]
  cases hres : (copyUser move a uaddr kptr len s).1 with
  | false => simp
  | true =>
    refine or_congr_right (or_congr_right (and_congr_right fun hlow => ?_))
    rcases hleaves hlow with ⟨new, hvisits, hiff⟩
    rw [hvisits, hnew, List.append_nil]
    exact hiff hres

theorem moveIn_visits (phys kptr n : Nat) (s : CopyState) :
    (moveIn phys kptr n s).visits = s.visits := rfl

theorem moveOut_visits (phys kptr n : Nat) (s : CopyState) :
    (moveOut phys kptr n s).visits = s.visits := rfl

/-- `copy_from_user` writes to no table. -/
theorem copyIn_leaves (flags : Nat) (hlow : uaddr + len ≤ 2 ^ 47) :
    MeetsLeaves moveIn flags a uaddr kptr len s :=
  copyUser_leaves (I := fun _ _ _ => True) flags moveIn_visits
    (fun _ _ _ _ _ _ _ _ _ _ => ⟨trivial, fun _ => rfl⟩) trivial hlow

/-- `copy_to_user` writes to none if no frame of the range holds one. -/
theorem copyOut_leaves (flags : Nat) (hapart : ApartFromTables s.mem a uaddr len)
    (hlow : uaddr + len ≤ 2 ^ 47) : MeetsLeaves moveOut flags a uaddr kptr len s := by
  apply copyUser_leaves (I := fun s uaddr len => ApartFromTables s.mem a uaddr len) flags
    moveOut_visits ?_ hapart hlow
  intro s uaddr kptr len chunk visits hapart hlow hchunk hne
  have hpos := hchunk.pos
  have hle := hchunk.le
  have hwalk := walk_of_userVirtToPhys hne (by omega)
  have hsame := hchunk.sameTables kptr visits hapart hwalk
  refine ⟨hapart.rest hsame hle, ?_⟩
  exact leafEntry_of_frame (hchunk.notTable hapart hwalk) (hchunk.moveOut_outside kptr visits)

/-! ### The bytes that a copy writes -/

/-- `copy_to_user`, on frames without tables: it succeeds just if all pages are
there, and it leaves the tables and the kernel's memory as they are. -/
theorem copyOut_keeps (kptr : Nat) (hnz : FramesNonzero s.mem a) (hlow : uaddr + len < 2 ^ 64)
    (hapart : ApartFromTables s.mem a uaddr len) :
    ((copyUser moveOut a uaddr kptr len s).1 = true ↔ AllMapped s.mem a uaddr len) ∧
      SameTables a s.mem (copyUser moveOut a uaddr kptr len s).2.mem ∧
      (copyUser moveOut a uaddr kptr len s).2.kernel = s.kernel := by
  induction len using Nat.strong_induction_on generalizing uaddr kptr s with
  | _ len ih =>
    rcases copyUser_round moveOut kptr hnz hlow with
      ⟨rfl, heq⟩ | ⟨hlen, hnot, heq⟩ | ⟨chunk, f, visit, hchunk, hwalk, heq⟩
    · rw [heq]
      exact ⟨iff_of_true rfl (allMapped_of_zero s.mem), fun _ _ => rfl, rfl⟩
    · rw [heq]
      exact ⟨iff_of_false Bool.false_ne_true (not_allMapped hlen hnot), fun _ _ => rfl, rfl⟩
    · have hpos := hchunk.pos
      have hle := hchunk.le
      have hsame := hchunk.sameTables kptr (visit :: s.visits) hapart hwalk
      rw [heq]
      rcases @ih (len - chunk) (by omega) (uaddr + chunk) _ (kptr + chunk)
        (hsame.framesNonzero hnz) (by omega) (hapart.rest hsame hle) with ⟨hiff, htables, hkernel⟩
      refine ⟨?_, hsame.trans htables, hkernel⟩
      rw [hiff, hsame.allMapped_iff]
      exact (hchunk.allMapped_iff hwalk).symm

/-- Of physical memory it changes the translations of the range only. -/
theorem copyOut_frame (hnz : FramesNonzero s.mem a) (hlow : uaddr + len < 2 ^ 64)
    (hapart : ApartFromTables s.mem a uaddr len) {x : Nat}
    (hx : ∀ i < len, Mapped s.mem a (uaddr + i) → x ≠ userVirtToPhys s.mem a (uaddr + i)) :
    (copyUser moveOut a uaddr kptr len s).2.mem x = s.mem x := by
  induction len using Nat.strong_induction_on generalizing uaddr kptr s with
  | _ len ih =>
    rcases copyUser_round moveOut kptr hnz hlow with
      ⟨-, heq⟩ | ⟨-, -, heq⟩ | ⟨chunk, f, visit, hchunk, hwalk, heq⟩
    · rw [heq]
    · rw [heq]
    · have hpos := hchunk.pos
      have hle := hchunk.le
      have hsame := hchunk.sameTables kptr (visit :: s.visits) hapart hwalk
      rw [heq]
      rw [@ih (len - chunk) (by omega) (uaddr + chunk) (kptr + chunk) _
        (hsame.framesNonzero hnz) (by omega) (hapart.rest hsame hle), moveOut_mem, if_neg]
      · -- an address written in this round is a translation
        rintro ⟨hlo, hhi⟩
        have hi : x - (f + uaddr % 4096) < chunk := by omega
        rcases hchunk.translate hwalk hi with ⟨hpath, hphys⟩
        apply hx (x - (f + uaddr % 4096)) (by omega)
        · rw [Mapped, hpath]
          rfl
        · omega
      · intro i hi hmapped
        rw [Mapped, hsame.walk_path, Nat.add_assoc] at hmapped
        rw [hsame.userVirtToPhys_eq, Nat.add_assoc]
        exact hx (chunk + i) (by omega) hmapped

theorem DistinctFrames.rest {mem mem' : ByteMem} {chunk : Nat}
    (h : DistinctFrames mem a uaddr len) (hsame : SameTables a mem mem') (hle : chunk ≤ len) :
    DistinctFrames mem' a (uaddr + chunk) (len - chunk) := by
  intro v hlo hhi w hlo' hhi' f hv hw
  rw [hsame.walk_path] at hv hw
  exact h v (by omega) (by omega) w (by omega) (by omega) f hv hw

/-- No later address is translated into the first chunk. -/
theorem DistinctFrames.ne_later {mem : ByteMem} {chunk f i v : Nat}
    (h : DistinctFrames mem a uaddr len) (hchunk : Chunk uaddr len chunk)
    (hwalk : walk (child mem) a (path uaddr) = some f) (hi : i < chunk)
    (hlo : uaddr + chunk ≤ v) (hhi : v < uaddr + len) (hmapped : Mapped mem a v) :
    userVirtToPhys mem a (uaddr + i) ≠ userVirtToPhys mem a v := by
  have hpos := hchunk.pos
  have hpage := hchunk.page
  have hfull := hchunk.full
  rcases Option.isSome_iff_exists.mp hmapped with ⟨g, hg⟩
  rw [(hchunk.translate hwalk hi).2, userVirtToPhys_of_walk hg]
  intro heq
  have hf : f % 4096 = 0 := aligned_of_walk_path hwalk
  have hg' : g % 4096 = 0 := aligned_of_walk_path hg
  have hfg : g = f := by omega
  rw [hfg] at hg
  have hpages := h uaddr (Nat.le_refl _) (by omega) v (by omega) hhi f hwalk hg
  omega

/-- On distinct frames the translations of the range hold the source. -/
theorem copyOut_bytes (hnz : FramesNonzero s.mem a) (hlow : uaddr + len < 2 ^ 64)
    (hapart : ApartFromTables s.mem a uaddr len) (hdist : DistinctFrames s.mem a uaddr len)
    (hmapped : AllMapped s.mem a uaddr len) {i : Nat} (hi : i < len) :
    (copyUser moveOut a uaddr kptr len s).2.mem (userVirtToPhys s.mem a (uaddr + i)) =
      s.kernel (kptr + i) := by
  induction len using Nat.strong_induction_on generalizing uaddr kptr s i with
  | _ len ih =>
    rcases copyUser_round moveOut kptr hnz hlow with
      ⟨hlen, -⟩ | ⟨hlen, hnot, -⟩ | ⟨chunk, f, visit, hchunk, hwalk, heq⟩
    · omega
    · exact absurd hmapped (not_allMapped hlen hnot)
    · have hpos := hchunk.pos
      have hle := hchunk.le
      have hsame := hchunk.sameTables kptr (visit :: s.visits) hapart hwalk
      have hnz' := hsame.framesNonzero hnz
      have hapart' := hapart.rest hsame hle
      have hmapped' := (hchunk.allMapped_iff hwalk).mp hmapped
      rw [heq]
      by_cases hin : i < chunk
      · rw [copyOut_frame hnz' (by omega) hapart', (hchunk.translate hwalk hin).2, moveOut_mem,
          if_pos (by omega), Nat.add_sub_cancel_left]
        intro j hj hm
        rw [Mapped, hsame.walk_path] at hm
        rw [hsame.userVirtToPhys_eq]
        exact hdist.ne_later hchunk hwalk hin (by omega) (by omega) hm
      · have hrest := @ih (len - chunk) (by omega) (uaddr + chunk) (kptr + chunk) _ hnz'
          (by omega) hapart' (hdist.rest hsame hle) (hsame.allMapped_iff.mpr hmapped') (i - chunk)
          (by omega)
        rw [hsame.userVirtToPhys_eq, show uaddr + chunk + (i - chunk) = uaddr + i by omega] at hrest
        rw [hrest]
        show s.kernel (kptr + chunk + (i - chunk)) = s.kernel (kptr + i)
        congr 1
        omega

end Loops

/-! ## The two functions -/

/-- When a copy touches user memory only: it fails, or moves nothing, or its range lies in the
lower half and all its pages have the bits of `flags` in the tables that it was called with.
For `copy_to_user` no frame of the range holds a table, so that it does not write to the
entries it comes to. -/
theorem copies_userOnly_iff (pml4Phys : Option Nat) (uaddr kptr len : Nat) (mem kernel : ByteMem) :
    (((copyFromUser pml4Phys kptr uaddr len ⟨mem, kernel, []⟩).1 = true →
        UserOnly vmmUser (copyFromUser pml4Phys kptr uaddr len ⟨mem, kernel, []⟩).2.visits) ↔
      (copyFromUser pml4Phys kptr uaddr len ⟨mem, kernel, []⟩).1 = false ∨ len = 0 ∨
        (uaddr + len ≤ 2 ^ 47 ∧ ∀ a ∈ pml4Phys, ∀ v, uaddr ≤ v → v < uaddr + len →
          HasFlags vmmUser (leafEntry mem a v))) ∧
    ((∀ a ∈ pml4Phys, ApartFromTables mem a uaddr len) →
      (((copyToUser pml4Phys uaddr kptr len ⟨mem, kernel, []⟩).1 = true →
          UserOnly (vmmUser ||| vmmWritable)
            (copyToUser pml4Phys uaddr kptr len ⟨mem, kernel, []⟩).2.visits) ↔
        (copyToUser pml4Phys uaddr kptr len ⟨mem, kernel, []⟩).1 = false ∨ len = 0 ∨
          (uaddr + len ≤ 2 ^ 47 ∧ ∀ a ∈ pml4Phys, ∀ v, uaddr ≤ v → v < uaddr + len →
            HasFlags (vmmUser ||| vmmWritable) (leafEntry mem a v)))) := by
  cases pml4Phys with
  | none => simp [copyFromUser, copyToUser]
  | some a =>
    simp only [copyFromUser, copyToUser, Option.mem_some_iff, forall_eq']
    constructor
    · exact copyUser_userOnly_of_leaves moveIn_visits rfl fun hlow => copyIn_leaves vmmUser hlow
    · intro hapart
      exact copyUser_userOnly_of_leaves moveOut_visits rfl fun hlow =>
        copyOut_leaves (vmmUser ||| vmmWritable) hapart hlow

section TwoPages

/-- Entry `i` of the table `t` leads to `c`. -/
def linkEntry (mem : ByteMem) (t : Nat) (i : Fin 512) (c : Nat) : ByteMem :=
  write64 mem (t + 8 * i.val) (makeEntry c (mapUserFlags vmmWritable true))

/-- Tables at 0x1000 to 0x4000 that map page 0 to `f` and page 1 to `g`. -/
def twoPages (f g : Nat) : ByteMem :=
  linkEntry (linkEntry (linkEntry (linkEntry (linkEntry (fun _ => 0) 0x1000 0 0x2000)
    0x2000 0 0x3000) 0x3000 0 0x4000) 0x4000 0 f) 0x4000 1 g

theorem child_linkEntry {mem : ByteMem} {t c x : Nat} {i : Fin 512} (ht : Aligned t)
    (hc : Aligned c) (hsmall : c < 2 ^ 52) (hx : Aligned x) (j : Fin 512) :
    child (linkEntry mem t i c) x j = if x = t ∧ j = i then some c else child mem x j := by
  rw [linkEntry, child_write64 ht hx (makeEntry_lt _ _), Radix.set,
    decode_makeEntry hc hsmall (mapUserFlags_mod_two _ _)]

/-- Two frames that an entry can hold. -/
structure FramePair (f g : Nat) : Prop where
  first : Aligned f
  second : Aligned g
  firstLt : f < 2 ^ 52
  secondLt : g < 2 ^ 52

section Tables

variable {f g : Nat} (hpair : FramePair f g)

include hpair

theorem child_twoPages {x : Nat} (hx : Aligned x) (j : Fin 512) :
    child (twoPages f g) x j =
      if x = 0x4000 then (if j = 1 then some g else if j = 0 then some f else none)
      else if j = 0 ∧ (x = 0x1000 ∨ x = 0x2000 ∨ x = 0x3000) then some (x + 0x1000) else none := by
  rw [twoPages, child_linkEntry (by decide) hpair.second hpair.secondLt hx,
    child_linkEntry (by decide) hpair.first hpair.firstLt hx,
    child_linkEntry (by decide) (by decide) (by decide) hx,
    child_linkEntry (by decide) (by decide) (by decide) hx,
    child_linkEntry (by decide) (by decide) (by decide) hx, child_zero]
  by_cases hx4 : x = 0x4000
  · simp [hx4]
  · by_cases hj : j = 0
    · simp only [hx4, hj, and_true, true_and, false_and, if_false]
      split_ifs <;> simp_all
    · simp [hx4, hj]

/-- The tables that a walk comes to, above the pages. -/
theorem walk_twoPages {p : List (Fin 512)} (hp : p.length ≤ 3) {t : Nat}
    (h : walk (child (twoPages f g)) 0x1000 p = some t) : t = 0x1000 * (p.length + 1) := by
  -- one table after the other
  have hsteps : ∀ (p : List (Fin 512)) (k t : Nat), 1 ≤ k → k + p.length ≤ 4 →
      walk (child (twoPages f g)) (0x1000 * k) p = some t → t = 0x1000 * (k + p.length) := by
    intro p
    induction p with
    | nil =>
      intro k t _ _ hwalk
      exact (Option.some.inj hwalk).symm
    | cons i p ih =>
      intro k t hk hlen hwalk
      rw [List.length_cons] at hlen ⊢
      have halign : Aligned (0x1000 * k) := by
        unfold Aligned
        omega
      rw [walk_cons, child_twoPages hpair halign, if_neg (by omega)] at hwalk
      split at hwalk
      · rw [Option.bind_some, show 0x1000 * k + 0x1000 = 0x1000 * (k + 1) by omega] at hwalk
        rw [ih (k + 1) t (by omega) (by omega) hwalk]
        omega
      · cases hwalk
  have hend := hsteps p 1 t (by omega) (by omega) h
  rw [hend]
  omega

/-- The frames that are mapped. -/
theorem frame_twoPages {v c : Nat}
    (h : walk (child (twoPages f g)) 0x1000 (path v) = some c) :
    (c = f ∧ ptIndex v = 0) ∨ (c = g ∧ ptIndex v = 1) := by
  rw [path, walk_append] at h
  rcases Option.bind_eq_some_iff.mp h with ⟨t, ht, hc⟩
  have htable : t = 0x4000 := walk_twoPages hpair (length_upperPath v).le ht
  rw [walk_singleton, htable, child_twoPages hpair (by decide), if_pos rfl] at hc
  have hslot := val_ptSlot v
  split at hc
  · next hone =>
    rw [hone] at hslot
    exact Or.inr ⟨(Option.some.inj hc).symm, hslot.symm⟩
  · split at hc
    · next hzero =>
      rw [hzero] at hslot
      exact Or.inl ⟨(Option.some.inj hc).symm, hslot.symm⟩
    · cases hc

/-- The first two pages are. -/
theorem mapped_twoPages : AllMapped (twoPages f g) 0x1000 0 0x2000 := by
  intro v _ hv
  have hpages : path v = [0, 0, 0, 0] ∨ path v = [0, 0, 0, 1] := by
    rcases Nat.lt_or_ge v 0x1000 with hlt | hge
    · exact Or.inl ((path_eq_iff v 0).mpr (by unfold pageOf; omega))
    · exact Or.inr ((path_eq_iff v 0x1000).mpr (by unfold pageOf; omega))
  have hstep : ∀ k, 1 ≤ k → k ≤ 3 →
      child (twoPages f g) (0x1000 * k) 0 = some (0x1000 * (k + 1)) := by
    intro k hk hk'
    have halign : Aligned (0x1000 * k) := by
      unfold Aligned
      omega
    rw [child_twoPages hpair halign, if_neg (by omega), if_pos ⟨rfl, by omega⟩]
    congr 1
  have h₁ := hstep 1 (by omega) (by omega)
  have h₂ := hstep 2 (by omega) (by omega)
  have h₃ := hstep 3 (by omega) (by omega)
  have hlast : ∀ j, child (twoPages f g) 0x4000 j =
      if j = 1 then some g else if j = 0 then some f else none := by
    intro j
    rw [child_twoPages hpair (by decide), if_pos rfl]
  simp only [Nat.reduceMul, Nat.reduceAdd] at h₁ h₂ h₃
  unfold Mapped
  rcases hpages with hpath | hpath
  · simp [hpath, h₁, h₂, h₃, hlast]
  · simp [hpath, h₁, h₂, h₃, hlast]

theorem framesNonzero_twoPages (hf₀ : f ≠ 0) (hg₀ : g ≠ 0) :
    FramesNonzero (twoPages f g) 0x1000 := by
  intro v c hc
  rcases frame_twoPages hpair hc with ⟨rfl, -⟩ | ⟨rfl, -⟩
  · exact hf₀
  · exact hg₀

/-- Where the bytes of the two pages are. -/
theorem translate_twoPages {v : Nat} (hv : v < 0x2000) :
    userVirtToPhys (twoPages f g) 0x1000 v = (if v < 0x1000 then f else g) + v % 4096 := by
  have hmapped := mapped_twoPages hpair v (Nat.zero_le v) (by omega)
  rcases Option.isSome_iff_exists.mp hmapped with ⟨c, hc⟩
  have hpage := ptIndex_eq v
  rw [userVirtToPhys_of_walk hc]
  rcases frame_twoPages hpair hc with ⟨rfl, hslot⟩ | ⟨rfl, hslot⟩
  · rw [if_pos (by omega)]
  · rw [if_neg (by omega)]

/-- The entries of the two pages. -/
theorem leafEntry_twoPages {v : Nat} (hv : v < 0x2000) :
    leafEntry (twoPages f g) 0x1000 v =
      some (makeEntry (if v < 0x1000 then f else g) (mapUserFlags vmmWritable true)) := by
  have hmapped := mapped_twoPages hpair v (Nat.zero_le v) (by omega)
  rw [Mapped, path, walk_append] at hmapped
  rcases Option.isSome_iff_exists.mp hmapped with ⟨c, hc⟩
  rcases Option.bind_eq_some_iff.mp hc with ⟨t, ht, -⟩
  have htable : t = 0x4000 := walk_twoPages hpair (length_upperPath v).le ht
  have hslot := val_ptSlot v
  have hpage := ptIndex_eq v
  rw [leafEntry, ht, htable, Option.map_some, twoPages, linkEntry,
    pte_write64 (by decide) (by decide) (makeEntry_lt _ _), linkEntry,
    pte_write64 (by decide) (by decide) (makeEntry_lt _ _)]
  rcases Nat.lt_or_ge v 0x1000 with hlt | hge
  · have hzero : ptSlot v = 0 := Fin.ext (by rw [hslot, Fin.val_zero]; omega)
    rw [hzero, if_neg (by decide), if_pos ⟨rfl, rfl⟩, if_pos hlt]
  · have hone : ptSlot v = 1 := Fin.ext (by rw [hslot, Fin.val_one]; omega)
    rw [hone, if_pos ⟨rfl, rfl⟩, if_neg (by omega)]

/-- The tables end at 0x5000. -/
theorem not_holdsTable_twoPages {c : Nat} (hc : 0x5000 ≤ c) :
    ¬ HoldsTable (twoPages f g) 0x1000 c := by
  rintro ⟨p, t, x, hp, ht, hx, hx'⟩
  have htable := walk_twoPages hpair hp ht
  unfold InPage at hx hx'
  omega

theorem apart_twoPages (hf₅ : 0x5000 ≤ f) (hg₅ : 0x5000 ≤ g) (uaddr len : Nat) :
    ApartFromTables (twoPages f g) 0x1000 uaddr len := by
  intro v _ _ c hc
  rcases frame_twoPages hpair hc with ⟨rfl, -⟩ | ⟨rfl, -⟩
  · exact not_holdsTable_twoPages hpair hf₅
  · exact not_holdsTable_twoPages hpair hg₅

theorem distinct_twoPages (hne : f ≠ g) {uaddr len : Nat} (hend : uaddr + len ≤ 0x2000) :
    DistinctFrames (twoPages f g) 0x1000 uaddr len := by
  intro v _ hv w _ hw c hc hc'
  have hvpage := ptIndex_eq v
  have hwpage := ptIndex_eq w
  rcases frame_twoPages hpair hc with ⟨rfl, hslot⟩ | ⟨rfl, hslot⟩
  · rcases frame_twoPages hpair hc' with ⟨-, hslot'⟩ | ⟨heq, -⟩
    · omega
    · exact absurd heq hne
  · rcases frame_twoPages hpair hc' with ⟨heq, -⟩ | ⟨-, hslot'⟩
    · exact absurd heq.symm hne
    · omega

end Tables

/-- The two pages behind the tables. -/
theorem framePair_afterTables : FramePair 0x5000 0x6000 :=
  ⟨by decide, by decide, by decide, by decide⟩

/-- Twelve bytes across the border of the two pages can be copied. -/
theorem twoPages_ready : FramesNonzero (twoPages 0x5000 0x6000) 0x1000 ∧
    AllMapped (twoPages 0x5000 0x6000) 0x1000 4090 12 ∧
    ApartFromTables (twoPages 0x5000 0x6000) 0x1000 4090 12 := by
  have hpair := framePair_afterTables
  refine ⟨framesNonzero_twoPages hpair (by decide) (by decide), ?_,
    apart_twoPages hpair (by decide) (by decide) 4090 12⟩
  exact fun v hlo hhi => mapped_twoPages hpair v (by omega) (by omega)

/-- Twelve bytes across the border of two pages, all of them to user pages that can be
written. -/
theorem copies_userOnly_twoPages :
    (copyToUser (some 0x1000) 4090 0 12
        ⟨twoPages 0x5000 0x6000, fun x => UInt8.ofNat x, []⟩).1 = true ∧
      UserOnly (vmmUser ||| vmmWritable) (copyToUser (some 0x1000) 4090 0 12
        ⟨twoPages 0x5000 0x6000, fun x => UInt8.ofNat x, []⟩).2.visits := by
  rcases twoPages_ready with ⟨hnz, hmapped, hapart⟩
  have hcopied := (@copyOut_keeps 0x1000 4090 12
    ⟨twoPages 0x5000 0x6000, fun x => UInt8.ofNat x, []⟩ 0 hnz (by decide) hapart).1.mpr hmapped
  have honly := copies_userOnly_iff (some 0x1000) 4090 0 12 (twoPages 0x5000 0x6000)
    (fun x => UInt8.ofNat x)
  refine ⟨hcopied, (honly.2 ?_).mpr (Or.inr (Or.inr ⟨by decide, ?_⟩)) hcopied⟩
  · rintro a ⟨⟩
    exact hapart
  · rintro a ⟨⟩ v hlo hhi
    rw [leafEntry_twoPages framePair_afterTables (by omega)]
    refine ⟨_, rfl, ?_⟩
    split
    · decide
    · decide

end TwoPages

end Orchid
