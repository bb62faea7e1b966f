import Orchid.Device.Print

/-! # Formatted printing

A model of `serial_printf` of `kernel/serial.c` and `console_printf` of
`kernel/console.c`. The two have one body and differ in the functions that they
call, of which only the hexadecimal ones print something else.

A round of the loop advances the format pointer once, and once more at a `%`.
Only the head of the loop looks for the end, so that a `%` as the last character
takes the pointer over it.
-/

namespace Orchid

/-! ## Model -/

/-- An argument, of the type that `va_arg` asks for. -/
inductive PrintArg where
  | str (s : Option CString)
  | hex (x : UInt64)
  | dec (d : Int64)
  | chr (c : Int32)

/-- A case of the `switch`. -/
inductive Conversion where
  | str
  | hex
  | dec
  | chr
  | percent
  | unknown (k : UInt8)

/-- The case that is taken for the character behind the `%`. -/
def conversion (k : UInt8) : Conversion :=
  if k = ascii 's' then .str
  else if k = ascii 'x' then .hex
  else if k = ascii 'd' then .dec
  else if k = ascii 'c' then .chr
  else if k = ascii '%' then .percent
  else .unknown k

/-- `"(null)"`. -/
def nullText : List UInt8 := ['(', 'n', 'u', 'l', 'l', ')'].map ascii

/-- `(char)c`. -/
def charOf (c : Int32) : UInt8 := UInt8.ofNat (c.toInt % 256).toNat

/-- What a case prints, and the arguments that are left. There is no result if the next
argument is not of the type that is asked for. -/
def convert (hex : List UInt8) (junk : Int → UInt8) :
    Conversion → List PrintArg → Option (List UInt8 × List PrintArg)
  | .str, .str (some s) :: rest =>
    (readString s.byte (s.text.length + 1) 0).map fun text => (text, rest)
  | .str, .str none :: rest => some (nullText, rest)
  | .hex, .hex x :: rest =>
    (printHex hex x.toNat junk).map fun r => (ascii '0' :: ascii 'x' :: r.text, rest)
  | .dec, .dec d :: rest => (printDec d.toInt junk).map fun r => (r.text, rest)
  | .chr, .chr c :: rest => some ([charOf c], rest)
  | .percent, args => some ([ascii '%'], args)
  | .unknown k, args => some ([ascii '%', k], args)
  | _, _ => none

/-- A call on its way: the format pointer as an index, what was printed so far and the
indices of the format that were read, the last first. -/
structure PrintState where
  fmt : Nat
  args : List PrintArg
  out : List UInt8
  reads : List Nat
  stopped : Bool

/-- A round of the loop. -/
def printfRound (hex : List UInt8) (junk : Nat → Int → UInt8) (format : Nat → UInt8)
    (s : PrintState) : Option PrintState :=
  if s.stopped then some s
  else if format s.fmt = 0 then some { s with reads := s.fmt :: s.reads, stopped := true }
  else if format s.fmt = ascii '%' then
    (convert hex (junk s.fmt) (conversion (format (s.fmt + 1))) s.args).map fun (text, args) =>
      { s with
        fmt := s.fmt + 1 + 1
        args := args
        out := s.out ++ text
        reads := (s.fmt + 1) :: s.fmt :: s.reads }
  else some
    { s with
      fmt := s.fmt + 1
      out := s.out ++ [format s.fmt]
      reads := s.fmt :: s.reads }

def printfRounds (hex : List UInt8) (junk : Nat → Int → UInt8) (format : Nat → UInt8) :
    Nat → PrintState → Option PrintState
  | 0, s => some s
  | n + 1, s => (printfRound hex junk format s).bind (printfRounds hex junk format n)

/-- The state at the call. -/
def printfStart (args : List PrintArg) : PrintState := ⟨0, args, [], [], false⟩

/-- `serial_printf`, after `n` rounds. The stack holds `junk i` when the format is at
index `i`. -/
def serialPrintf (junk : Nat → Int → UInt8) (format : Nat → UInt8) (args : List PrintArg)
    (n : Nat) : Option PrintState :=
  printfRounds serialHex junk format n (printfStart args)

/-- `console_printf`, after `n` rounds. -/
def consolePrintf (junk : Nat → Int → UInt8) (format : Nat → UInt8) (args : List PrintArg)
    (n : Nat) : Option PrintState :=
  printfRounds consoleHex junk format n (printfStart args)

/-! ## What a format stands for -/

/-- A printed character: one that is fixed, or a hexadecimal digit in the printer's case. -/
inductive Glyph where
  | char (c : UInt8)
  | digit (d : Nat)

def Glyph.byte (hex : List UInt8) : Glyph → UInt8
  | char c => c
  | digit d => hex.getD d 0

/-- The digits of a number, or a zero. -/
def hexGlyphs (n : Nat) : List Glyph :=
  if n = 0 then [.digit 0] else (Nat.digits 16 n).reverse.map .digit

/-- A conversion, and the arguments behind those that it takes. -/
def expand : Conversion → List PrintArg → Option (List Glyph × List PrintArg)
  | .str, .str s :: rest => some ((s.elim nullText CString.text).map .char, rest)
  | .hex, .hex x :: rest =>
    some (.char (ascii '0') :: .char (ascii 'x') :: hexGlyphs x.toNat, rest)
  | .dec, .dec d :: rest => some ((decText d.toInt).map .char, rest)
  | .chr, .chr c :: rest => some ([.char (charOf c)], rest)
  | .percent, args => some ([.char (ascii '%')], args)
  | .unknown k, args => some ([.char (ascii '%'), .char k], args)
  | _, _ => none

/-- What is printed for a whole format, if the arguments match it. Behind a `%` at the end
of the format is the terminator. -/
def formatted : List UInt8 → List PrintArg → Option (List Glyph)
  | [], _ => some []
  | [c], _ => some (if c = ascii '%' then [.char c, .char 0] else [.char c])
  | c :: k :: t, args =>
    if c = ascii '%' then
      (expand (conversion k) args).bind fun (gs, rest) => (formatted t rest).map (gs ++ ·)
    else (formatted (k :: t) args).map (.char c :: ·)

/-- The format ends in a `%` that begins a conversion. -/
def endsInPercent : List UInt8 → Bool
  | [] => false
  | [c] => c = ascii '%'
  | c :: k :: t => if c = ascii '%' then endsInPercent t else endsInPercent (k :: t)

theorem hexText_eq_glyphs {hex : List UInt8} (h : HexDigits hex) (n : Nat) :
    hexText hex n = (hexGlyphs n).map (Glyph.byte hex) := by
  unfold hexText hexGlyphs
  split
  · rw [← h.zero]
    rfl
  · rw [digitText, List.map_map]
    rfl

theorem map_char_byte (hex : List UInt8) (t : List UInt8) :
    (t.map Glyph.char).map (Glyph.byte hex) = t := by
  rw [List.map_map]
  exact List.map_id t

/-- A conversion prints what it stands for. -/
theorem convert_eq {hex : List UInt8} (h : HexDigits hex) {junk : Int → UInt8} {k : Conversion}
    {args rest : List PrintArg} {gs : List Glyph} (hexpand : expand k args = some (gs, rest)) :
    convert hex junk k args = some (gs.map (Glyph.byte hex), rest) := by
  unfold expand at hexpand
  split at hexpand
  · -- a string
    next s _ =>
    cases hexpand
    rw [map_char_byte]
    cases s with
    | none => rfl
    | some s =>
      have hread := readString_of_spells s.spells (Nat.lt_succ_self _)
      rw [convert, hread]
      rfl
  · -- a number in hexadecimal
    next x _ =>
    cases hexpand
    rcases printHex_spec h x.toNat_lt junk with ⟨writes, _, hprint⟩
    rw [convert, hprint, hexText_eq_glyphs h]
    rfl
  · -- a number in decimal
    next d _ =>
    cases hexpand
    rcases printDec_spec d.le_toInt d.toInt_lt junk with ⟨writes, _, hprint⟩
    rw [convert, hprint, map_char_byte]
    rfl
  · cases hexpand
    rfl
  · cases hexpand
    rfl
  · cases hexpand
    rfl
  · cases hexpand

/-! ## Rounds -/

section Rounds

variable {hex : List UInt8} {junk : Nat → Int → UInt8} {format : Nat → UInt8} {s s' : PrintState}

theorem printfRounds_add (m n : Nat) (s : PrintState) :
    printfRounds hex junk format (m + n) s =
      (printfRounds hex junk format m s).bind (printfRounds hex junk format n) := by
  induction m generalizing s with
  | zero =>
    rw [Nat.zero_add]
    rfl
  | succ m ih =>
    rw [Nat.succ_add, printfRounds, printfRounds, Option.bind_assoc]
    congr 1
    funext s'
    exact ih s'

theorem printfRounds_stopped (h : s.stopped) (n : Nat) :
    printfRounds hex junk format n s = some s := by
  induction n with
  | zero => rfl
  | succ n ih =>
    rw [printfRounds, printfRound, if_pos h]
    exact ih

/-- A round that is not the last reads the character it is at. -/
theorem printfRound_reads (h : printfRound hex junk format s = some s') :
    (∀ i ∈ s.reads, i ∈ s'.reads) ∧ (s.stopped = false → s.fmt ∈ s'.reads) := by
  unfold printfRound at h
  split at h
  · next hstopped =>
    cases h
    exact ⟨fun i hi => hi, fun hfalse => absurd hstopped (by simp [hfalse])⟩
  · split at h
    · cases h
      simp +contextual
    · split at h
      · rcases Option.map_eq_some_iff.mp h with ⟨⟨text, args⟩, _, rfl⟩
        simp +contextual
      · cases h
        simp +contextual

theorem printfRounds_reads {n : Nat} (h : printfRounds hex junk format n s = some s') :
    ∀ i ∈ s.reads, i ∈ s'.reads := by
  induction n generalizing s with
  | zero =>
    cases h
    exact fun i hi => hi
  | succ n ih =>
    rcases Option.bind_eq_some_iff.mp h with ⟨s₁, hround, hrest⟩
    intro i hi
    exact ih hrest i ((printfRound_reads hround).1 i hi)

/-- The state after a plain character. -/
def PrintState.afterPlain (s : PrintState) (c : UInt8) : PrintState :=
  { s with fmt := s.fmt + 1, out := s.out ++ [c], reads := s.fmt :: s.reads }

/-- The state after a conversion. -/
def PrintState.afterConversion (s : PrintState) (text : List UInt8) (rest : List PrintArg) :
    PrintState :=
  { s with
    fmt := s.fmt + 1 + 1
    args := rest
    out := s.out ++ text
    reads := (s.fmt + 1) :: s.fmt :: s.reads }

theorem printfRound_plain {c : UInt8} (hrun : s.stopped = false) (hc : c ≠ 0)
    (hat : format s.fmt = c) (hplain : c ≠ ascii '%') :
    printfRound hex junk format s = some (s.afterPlain c) := by
  have hgo : ¬ s.stopped = true := by simp [hrun]
  unfold printfRound
  rw [if_neg hgo, hat, if_neg hc, if_neg hplain]
  rfl

theorem printfRound_conversion (hhex : HexDigits hex) {rest : List PrintArg} {gs : List Glyph}
    (hrun : s.stopped = false) (hat : format s.fmt = ascii '%')
    (hexpand : expand (conversion (format (s.fmt + 1))) s.args = some (gs, rest)) :
    printfRound hex junk format s = some (s.afterConversion (gs.map (Glyph.byte hex)) rest) := by
  have hgo : ¬ s.stopped = true := by simp [hrun]
  have hpercent : ascii '%' ≠ 0 := by decide
  unfold printfRound
  rw [if_neg hgo, hat, if_neg hpercent, if_pos rfl, convert_eq hhex hexpand]
  rfl

/-- The loop comes back to its head at the index `next` with the text printed, having read
nothing behind the index `last`. -/
def Scans (hex : List UInt8) (junk : Nat → Int → UInt8) (format : Nat → UInt8) (s : PrintState)
    (last next : Nat) (text : List UInt8) : Prop :=
  ∃ n s', printfRounds hex junk format n s = some s' ∧ s'.stopped = false ∧ s'.fmt = next ∧
    s'.out = s.out ++ text ∧ ∀ i ∈ s'.reads, i ∈ s.reads ∨ i ≤ last

theorem Scans.refl {last next : Nat} (hrun : s.stopped = false) (hnext : s.fmt = next) :
    Scans hex junk format s last next [] :=
  ⟨0, s, rfl, hrun, hnext, (List.append_nil _).symm, fun _ hi => .inl hi⟩

theorem Scans.of_round {s₁ : PrintState} {last next : Nat} {text rest : List UInt8}
    (h : Scans hex junk format s₁ last next rest)
    (hround : printfRound hex junk format s = some s₁)
    (hout : s₁.out = s.out ++ text) (hreads : ∀ i ∈ s₁.reads, i ∈ s.reads ∨ i ≤ last) :
    Scans hex junk format s last next (text ++ rest) := by
  rcases h with ⟨n, s', hrest, hrun, hfmt, hout', hreads'⟩
  refine ⟨n + 1, s', ?_, hrun, hfmt, ?_, ?_⟩
  · rw [printfRounds, hround]
    exact hrest
  · rw [hout', hout, List.append_assoc]
  · intro i hi
    rcases hreads' i hi with hi | hi
    · exact hreads i hi
    · exact .inr hi

theorem Scans.plain {c : UInt8} {last next : Nat} {rest : List UInt8}
    (h : Scans hex junk format (s.afterPlain c) last next rest) (hrun : s.stopped = false)
    (hc : c ≠ 0) (hat : format s.fmt = c) (hplain : c ≠ ascii '%') (hlast : s.fmt ≤ last) :
    Scans hex junk format s last next (c :: rest) :=
  h.of_round (printfRound_plain hrun hc hat hplain) rfl
    (List.forall_mem_cons.mpr ⟨.inr hlast, fun _ hi => .inl hi⟩)

theorem Scans.conversion (hhex : HexDigits hex) {args : List PrintArg} {gs : List Glyph}
    {last next : Nat} {rest : List UInt8}
    (h : Scans hex junk format (s.afterConversion (gs.map (Glyph.byte hex)) args) last next rest)
    (hrun : s.stopped = false) (hat : format s.fmt = ascii '%')
    (hexpand : expand (Orchid.conversion (format (s.fmt + 1))) s.args = some (gs, args))
    (hlast : s.fmt + 1 ≤ last) :
    Scans hex junk format s last next (gs.map (Glyph.byte hex) ++ rest) := by
  apply h.of_round (printfRound_conversion hhex hrun hat hexpand) rfl
  refine List.forall_mem_cons.mpr ⟨.inr hlast, ?_⟩
  exact List.forall_mem_cons.mpr ⟨.inr (Nat.le_of_succ_le hlast), fun _ hi => .inl hi⟩

/-- From the head of the loop the rest of a format is printed. The loop is then at the
terminator, or behind it if the format ends in a `%`. -/
theorem scans_of_formatted (hhex : HexDigits hex) {t : List UInt8} {gs : List Glyph}
    (hrun : s.stopped = false) (hspells : Spells format s.fmt t)
    (hformat : formatted t s.args = some gs) {last : Nat} (hlast : last = s.fmt + t.length) :
    Scans hex junk format s last (if endsInPercent t then last + 1 else last)
      (gs.map (Glyph.byte hex)) := by
  -- the rounds follow the recursion over the format
  induction t using endsInPercent.induct generalizing s gs with
  | case1 =>
    cases hformat
    exact Scans.refl hrun hlast.symm
  | case2 c =>
    rcases hspells with ⟨hc, hat, hzero⟩
    rw [List.length_singleton] at hlast
    by_cases hpercent : c = ascii '%'
    · -- the terminator is taken for an unknown conversion
      have hexpand : expand (conversion (format (s.fmt + 1))) s.args =
          some ([.char (ascii '%'), .char 0], s.args) := by
        rw [show format (s.fmt + 1) = 0 from hzero]
        rfl
      rw [formatted, if_pos hpercent, hpercent] at hformat
      cases hformat
      rw [hpercent] at hat ⊢
      rw [show endsInPercent [ascii '%'] = true by decide, hlast]
      apply Scans.conversion hhex _ hrun hat hexpand (Nat.le_refl _)
      apply Scans.refl
      · exact hrun
      · rfl
    · rw [formatted, if_neg hpercent] at hformat
      cases hformat
      rw [show endsInPercent [c] = false by simp [endsInPercent, hpercent], hlast]
      apply Scans.plain _ hrun hc hat hpercent (Nat.le_succ _)
      apply Scans.refl
      · exact hrun
      · rfl
  | case3 k t ih =>
    rcases hspells with ⟨_, hat, _, hk, hspells⟩
    rw [List.length_cons, List.length_cons] at hlast
    rw [formatted, if_pos rfl] at hformat
    rcases Option.bind_eq_some_iff.mp hformat with ⟨⟨hs, args⟩, hexpand, hformat⟩
    rcases Option.map_eq_some_iff.mp hformat with ⟨gs', hgs', rfl⟩
    rw [← hk] at hexpand
    rw [endsInPercent, if_pos rfl, List.map_append]
    refine Scans.conversion hhex (ih hrun hspells hgs' ?_) hrun hat hexpand ?_
    · show last = s.fmt + 1 + 1 + t.length
      omega
    · omega
  | case4 c k t hplain ih =>
    rcases hspells with ⟨hc, hat, hspells⟩
    rw [List.length_cons] at hlast
    rw [formatted, if_neg hplain] at hformat
    rcases Option.map_eq_some_iff.mp hformat with ⟨gs', hgs', rfl⟩
    rw [endsInPercent, if_neg hplain, List.map_cons]
    refine Scans.plain (ih hrun hspells hgs' ?_) hrun hc hat hplain ?_
    · show last = s.fmt + 1 + (k :: t).length
      omega
    · omega

/-- A call that stops has read every index at which the loop was at its head before. -/
theorem fmt_mem_reads {m n : Nat} {f start : PrintState}
    (hn : printfRounds hex junk format n start = some s) (hrun : s.stopped = false)
    (hm : printfRounds hex junk format m start = some f) (hstopped : f.stopped) :
    s.fmt ∈ f.reads := by
  rcases Nat.lt_or_ge n m with hlt | hge
  · rcases Nat.exists_eq_add_of_lt hlt with ⟨k, rfl⟩
    rw [Nat.add_assoc, printfRounds_add, hn, Option.bind_some, printfRounds] at hm
    rcases Option.bind_eq_some_iff.mp hm with ⟨s₁, hround, hrest⟩
    exact printfRounds_reads hrest _ ((printfRound_reads hround).2 hrun)
  · -- a call that has stopped does not go on
    rcases Nat.exists_eq_add_of_le hge with ⟨k, rfl⟩
    rw [printfRounds_add, hm, Option.bind_some, printfRounds_stopped hstopped] at hn
    cases hn
    rw [hrun] at hstopped
    cases hstopped

/-- Nothing is read that has not been read when a call stops. -/
theorem reads_of_stopped {m n : Nat} {f start : PrintState}
    (hn : printfRounds hex junk format n start = some s)
    (hm : printfRounds hex junk format m start = some f) (hstopped : f.stopped) :
    ∀ i ∈ s.reads, i ∈ f.reads := by
  rcases Nat.le_total n m with hle | hge
  · rcases Nat.exists_eq_add_of_le hle with ⟨k, rfl⟩
    rw [printfRounds_add, hn] at hm
    exact printfRounds_reads hm
  · rcases Nat.exists_eq_add_of_le hge with ⟨k, rfl⟩
    rw [printfRounds_add, hm, Option.bind_some, printfRounds_stopped hstopped] at hn
    cases hn
    exact fun i hi => hi

end Rounds

/-! ## The end of the format -/

/-- A call, given by its rounds, never reads behind the end of its format, and stops there
with the text printed. -/
structure StopsAtEnd (call : Nat → Option PrintState) (f : CString) (text : List UInt8) : Prop where
  reads : ∀ n s, call n = some s → ∀ i ∈ s.reads, i ≤ f.text.length
  stops : ∃ n s, call n = some s ∧ s.stopped ∧ s.fmt = f.text.length ∧ s.out = text

theorem stopsAtEnd_of_formatted {hex : List UInt8} (hhex : HexDigits hex)
    (junk : Nat → Int → UInt8) {f : CString} {args : List PrintArg} {gs : List Glyph}
    (hformat : formatted f.text args = some gs) (hend : endsInPercent f.text = false) :
    StopsAtEnd (fun n => printfRounds hex junk f.byte n (printfStart args)) f
      (gs.map (Glyph.byte hex)) := by
  rcases scans_of_formatted (s := printfStart args) hhex rfl f.spells hformat rfl with
    ⟨n, s, hscan, hrun, hfmt, hout, hreads⟩
  rw [hend, if_neg Bool.false_ne_true] at hfmt
  have hzero : f.byte s.fmt = 0 := by
    rw [hfmt]
    exact f.spells.terminated
  have hlast : s.fmt = f.text.length := hfmt.trans (Nat.zero_add _)
  -- one round more finds the terminator
  have hstop : printfRounds hex junk f.byte (n + 1) (printfStart args) =
      some { s with reads := s.fmt :: s.reads, stopped := true } := by
    rw [printfRounds_add, hscan]
    simp [printfRounds, printfRound, hrun, hzero]
  constructor
  · intro m s' hm i hi
    have hmem := reads_of_stopped hm hstop rfl i hi
    rcases List.mem_cons.mp hmem with rfl | hmem
    · exact Nat.le_of_eq hlast
    · rcases hreads i hmem with hstart | hle
      · cases hstart
      · exact Nat.le_trans hle (Nat.le_of_eq (Nat.zero_add _))
  · exact ⟨_, _, hstop, rfl, hlast, hout⟩

theorem not_stopsAtEnd {hex : List UInt8} (hhex : HexDigits hex)
    (junk : Nat → Int → UInt8) {f : CString} {args : List PrintArg} {gs : List Glyph}
    (hformat : formatted f.text args = some gs) (hend : endsInPercent f.text) (text : List UInt8) :
    ¬ StopsAtEnd (fun n => printfRounds hex junk f.byte n (printfStart args)) f text := by
  rintro ⟨hreads, m, f', hm, hstopped, _⟩
  rcases scans_of_formatted (s := printfStart args) hhex rfl f.spells hformat rfl with
    ⟨n, s, hscan, hrun, hfmt, _⟩
  rw [if_pos hend] at hfmt
  have hle := hreads m f' hm s.fmt (fmt_mem_reads hscan hrun hm hstopped)
  have hstart : (printfStart args).fmt = 0 := rfl
  omega

/-- With matching arguments both functions keep within the format, stop at its end and
print the same characters up to the case of hexadecimal digits, if and only if the format
does not end in a `%` that begins a conversion. -/
theorem printf_within_format_iff (f : CString) (args : List PrintArg)
    (hmatch : (formatted f.text args).isSome) (junk junk' : Nat → Int → UInt8) :
    (∃ gs : List Glyph,
      StopsAtEnd (serialPrintf junk f.byte args) f (gs.map (Glyph.byte serialHex)) ∧
      StopsAtEnd (consolePrintf junk' f.byte args) f (gs.map (Glyph.byte consoleHex))) ↔
    endsInPercent f.text = false := by
  rcases Option.isSome_iff_exists.mp hmatch with ⟨gs, hformat⟩
  constructor
  · rintro ⟨gs', hserial, _⟩
    by_contra hend
    rw [Bool.not_eq_false] at hend
    exact not_stopsAtEnd serialHex_digits junk hformat hend _ hserial
  · intro hend
    exact ⟨gs, stopsAtEnd_of_formatted serialHex_digits junk hformat hend,
      stopsAtEnd_of_formatted consoleHex_digits junk' hformat hend⟩

/-- `"%d%%"` with the argument 7. -/
theorem printf_within_format_percentage : ∃ f : CString, ∃ gs : List Glyph,
    f.text = ['%', 'd', '%', '%'].map ascii ∧
    StopsAtEnd (serialPrintf (fun _ _ => 0) f.byte [.dec 7]) f (gs.map (Glyph.byte serialHex)) ∧
    StopsAtEnd (consolePrintf (fun _ _ => 0) f.byte [.dec 7]) f
      (gs.map (Glyph.byte consoleHex)) := by
  let f := CString.ofList (['%', 'd', '%', '%'].map ascii) (ne_zero_of_all (by decide))
  rcases (printf_within_format_iff f [.dec 7] rfl (fun _ _ => 0) (fun _ _ => 0)).mpr rfl with
    ⟨gs, hserial, hconsole⟩
  exact ⟨f, gs, rfl, hserial, hconsole⟩

/-- A format of one `%` with an `A` in the next byte: the call prints the terminator and
goes on behind it. -/
theorem printf_overruns : ∃ f : CString, ∃ s c : PrintState,
    f.text = [ascii '%'] ∧ (formatted f.text []).isSome ∧
    serialPrintf (fun _ _ => 0) f.byte [] 3 = some s ∧
    consolePrintf (fun _ _ => 0) f.byte [] 3 = some c ∧
    s.out = [ascii '%', 0, ascii 'A'] ∧ c.out = s.out ∧
    f.text.length + 1 ∈ s.reads ∧ f.text.length + 1 ∈ c.reads := by
  let f : CString :=
    { byte := fun i => [ascii '%', 0, ascii 'A'].getD i 0
      text := [ascii '%']
      spells := by simp [Spells, ascii] }
  let s : PrintState := ⟨3, [], [ascii '%', 0, ascii 'A'], [3, 2, 1, 0], true⟩
  have hbehind : f.text.length + 1 ∈ s.reads := by simp [f, s]
  exact ⟨f, s, s, rfl, rfl, rfl, rfl, rfl, rfl, hbehind, hbehind⟩

end Orchid
