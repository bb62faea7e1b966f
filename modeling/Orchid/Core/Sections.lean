import Mathlib.Data.List.Basic
import Mathlib.Logic.Function.Basic
import Mathlib.Logic.Relation
import Orchid.Core.Rules

/-! # Output under a lock

Writers share an output that takes one item at a time. The program of a writer is a list of
pieces: sections that it writes with the lock held, items that it writes without it, and calls
that write nothing and may not return. Others write to the same output at any time and without
the lock.

* The sections are whole: among the items written with the lock held are finished sections, one
  behind the other, and then a part of the section that the holder is in (`Inv.split`).
* What a writer has written and what it has left are its program (`kept_of_reachable`).
* A writer that waits for the lock needs no more than the steps of the holder to get it, and
  then finishes its section by steps of its own (`Inv.served`).
-/

namespace Sections

open Machine Relation Function

variable {T S α : Type*}

/-! ## Model -/

/-- A section, an item that is written without the lock, or a call that writes nothing. -/
inductive Piece (S α : Type*) where
  | locked (c : S)
  | plain (x : α)
  | away

/-- A step of a writer; an item says whether the lock is held for it. -/
inductive Act (α : Type*) where
  | lock
  | put (locked : Bool) (x : α)
  | unlock
  | away

/-- What is left to do in a section with the items `rest` to go. -/
def closing (rest : List α) : List (Act α) := rest.map (.put true) ++ [.unlock]

/-- The steps of a piece; `text` is what a section consists of. -/
def Piece.acts (text : S → List α) : Piece S α → List (Act α)
  | locked c => .lock :: closing (text c)
  | plain x => [.put false x]
  | away => [.away]

/-- The steps of a program. -/
def acts (text : S → List α) (prog : List (Piece S α)) : List (Act α) :=
  prog.flatMap (Piece.acts text)

/-- The sections of a program. -/
def sections (prog : List (Piece S α)) : List S :=
  prog.filterMap fun
    | .locked c => some c
    | _ => none

/-- An item, with the writer if it is not one of the others'. -/
structure Item (T α : Type*) where
  writer : Option T
  locked : Bool
  item : α

structure Output (T α : Type*) where
  /-- The word of the lock. -/
  held : Bool
  todo : T → List (Act α)
  items : List (Item T α)

/-- The word of the lock after the step. -/
def Act.word : Act α → Bool → Bool
  | lock, _ => true
  | unlock, _ => false
  | _, held => held

/-- What the step writes. -/
def Act.items (t : T) : Act α → List (Item T α)
  | put locked x => [⟨some t, locked, x⟩]
  | _ => []

namespace Output

def Init (text : S → List α) (prog : T → List (Piece S α)) : StatePred (Output T α) := fun s =>
  s.held = false ∧ (∀ t, s.todo t = acts text (prog t)) ∧ s.items = []

/-- A step of the writer `t`. One that finds the lock held tries again. -/
inductive Step [DecidableEq T] (t : T) : Action (Output T α) where
  | act {s : Output T α} {a : Act α} {todo : List (Act α)} : s.todo t = a :: todo →
      (a = .lock → s.held = false) →
      Step t s ⟨a.word s.held, update s.todo t todo, s.items ++ a.items t⟩

/-- A step of a writer, or an item of the others. -/
inductive Next [DecidableEq T] : Action (Output T α) where
  | step {s s' : Output T α} (t : T) : Step t s s' → Next s s'
  | other {s : Output T α} (x : α) : Next s { s with items := s.items ++ [⟨none, false, x⟩] }

end Output

/-- The items that are written with the lock held. -/
def written (items : List (Item T α)) : List (T × α) :=
  items.filterMap fun i => if i.locked then i.writer.map (·, i.item) else none

/-- All items of a writer. -/
def sentBy [DecidableEq T] (t : T) (items : List (Item T α)) : List α :=
  items.filterMap fun i => if i.writer = some t then some i.item else none

/-- The items that some steps write. -/
def left (todo : List (Act α)) : List α :=
  todo.filterMap fun
    | .put _ x => some x
    | _ => none

/-- What one writer has finished. -/
def finishedBy [DecidableEq T] (t : T) (done : List (T × S)) : List S :=
  (done.filter fun d => d.1 = t).map (·.2)

/-- The items of some sections. -/
def itemsOf (text : S → List α) (done : List (T × S)) : List (T × α) :=
  done.flatMap fun d => (text d.2).map (d.1, ·)

/-! ## Safety -/

theorem written_append (l r : List (Item T α)) : written (l ++ r) = written l ++ written r :=
  List.filterMap_append

/-- Outside of its sections the next step of a writer takes the lock for one, or has nothing to do
with the lock. -/
theorem acts_cases {text : S → List α} {ps : List (Piece S α)} {a : Act α} {todo : List (Act α)}
    (h : acts text ps = a :: todo) :
    (∃ c ps', a = .lock ∧ sections ps = c :: sections ps' ∧
      todo = closing (text c) ++ acts text ps') ∨
    a ≠ .lock ∧ (∀ held, a.word held = held) ∧ (∀ t : T, written (a.items t) = []) ∧
      ∃ ps', sections ps = sections ps' ∧ todo = acts text ps' := by
  cases ps with
  | nil => cases h
  | cons p ps =>
    cases p with
    | locked c =>
      obtain ⟨rfl, rfl⟩ := List.cons.inj h
      exact Or.inl ⟨c, ps, rfl, rfl, rfl⟩
    | plain x | away =>
      obtain ⟨rfl, rfl⟩ := List.cons.inj h
      exact Or.inr ⟨nofun, fun _ => rfl, fun _ => rfl, ps, rfl, rfl⟩

section Safety

variable [DecidableEq T] {prog : T → List (Piece S α)} {text : S → List α} {s s' : Output T α}
  {done : List (T × S)} {t : T} {c : S} {a : Act α} {todo : List (Act α)} {part rest : List α}
  {ps : List (Piece S α)}

/-- A writer in none of its sections. -/
def Outside (prog : T → List (Piece S α)) (text : S → List α) (done : List (T × S)) (t : T)
    (todo : List (Act α)) : Prop :=
  ∃ ps, todo = acts text ps ∧ sections (prog t) = finishedBy t done ++ sections ps

/-- The lock is free. -/
structure Idle (prog : T → List (Piece S α)) (text : S → List α) (s : Output T α)
    (done : List (T × S)) : Prop where
  held : s.held = false
  written : written s.items = itemsOf text done
  outside : ∀ t, Outside prog text done t (s.todo t)

/-- The writer `t` holds the lock, and has written `part` of its section. -/
structure Busy (prog : T → List (Piece S α)) (text : S → List α) (s : Output T α)
    (done : List (T × S)) (t : T) (c : S) (part rest : List α) (ps : List (Piece S α)) :
    Prop where
  held : s.held = true
  written : written s.items = itemsOf text done ++ part.map (t, ·)
  section_eq : text c = part ++ rest
  inside : s.todo t = closing rest ++ acts text ps
  inOrder : sections (prog t) = finishedBy t done ++ c :: sections ps
  outside : ∀ u, u ≠ t → Outside prog text done u (s.todo u)

/-- The sections finished, and a part of one if the lock is held. -/
def Inv (prog : T → List (Piece S α)) (text : S → List α) : StatePred (Output T α) := fun s =>
  ∃ done, Idle prog text s done ∨ ∃ t c part rest ps, Busy prog text s done t c part rest ps

theorem Idle.lock (h : Idle prog text s done) (hat : s.todo t = .lock :: todo) :
    ∃ c ps, todo = closing (text c) ++ acts text ps ∧
      Busy prog text ⟨true, update s.todo t todo, s.items ++ []⟩ done t c [] (text c) ps := by
  rcases h.outside t with ⟨ps, hps, horder⟩
  rcases acts_cases (T := T) (hps.symm.trans hat) with ⟨c, ps', -, hsec, rfl⟩ | ⟨hne, -⟩
  · refine ⟨c, ps', rfl, rfl, ?_, rfl, update_self .., horder.trans (by rw [hsec]), fun u hu => ?_⟩
    · simp [h.written]
    · simp only [update_of_ne hu]
      exact h.outside u
  · exact absurd rfl hne

theorem Busy.put {x : α} (h : Busy prog text s done t c part (x :: rest) ps) :
    Busy prog text ⟨s.held, update s.todo t (closing rest ++ acts text ps),
      s.items ++ [⟨some t, true, x⟩]⟩ done t c (part ++ [x]) rest ps where
  held := h.held
  written := by
    rw [written_append, h.written, List.map_append, List.append_assoc]
    rfl
  section_eq := by
    rw [h.section_eq, List.append_assoc]
    rfl
  inside := update_self ..
  inOrder := h.inOrder
  outside u hu := by
    simp only [update_of_ne hu]
    exact h.outside u hu

theorem Busy.unlock (h : Busy prog text s done t c part [] ps) :
    Idle prog text ⟨false, update s.todo t (acts text ps), s.items ++ []⟩ (done ++ [(t, c)]) where
  held := rfl
  written := by
    have hpart : text c = part := h.section_eq.trans (List.append_nil part)
    rw [List.append_nil, h.written]
    simp [itemsOf, hpart]
  outside u := by
    by_cases hu : u = t
    · subst hu
      exact ⟨ps, update_self .., by simp [h.inOrder, finishedBy]⟩
    · have hne : ¬ t = u := fun heq => hu heq.symm
      simpa [update_of_ne hu, Outside, finishedBy, hne] using h.outside u hu

/-- A step that has nothing to do with the lock. -/
theorem Outside.step {u : T} (h : Outside prog text done u (s.todo u)) (hat : s.todo t = a :: todo)
    (ha : a ≠ .lock) : Outside prog text done u (update s.todo t todo u) := by
  by_cases hu : u = t
  · subst hu
    rw [update_self]
    rcases h with ⟨ps, hps, horder⟩
    rcases acts_cases (T := T) (hps.symm.trans hat) with
      ⟨-, -, hlock, -⟩ | ⟨-, -, -, ps', hsec, rfl⟩
    · exact absurd hlock ha
    · exact ⟨ps', rfl, hsec ▸ horder⟩
  · rw [update_of_ne hu]
    exact h

theorem Inv.step (h : Inv prog text s) (hstep : Output.Step t s s') : Inv prog text s' := by
  rcases hstep with ⟨hat, hfree⟩
  rename_i a todo
  rcases h with ⟨done, hidle | ⟨u, c, part, rest, ps, hbusy⟩⟩
  · by_cases ha : a = .lock
    · subst ha
      rcases hidle.lock hat with ⟨c, ps, -, hbusy⟩
      exact ⟨done, .inr ⟨t, c, [], text c, ps, hbusy⟩⟩
    · rcases hidle.outside t with ⟨ps, hps, -⟩
      rcases acts_cases (hps.symm.trans hat) with ⟨-, -, hlock, -⟩ | ⟨-, hword, hitems, -⟩
      · exact absurd hlock ha
      · refine ⟨done, .inl ⟨(hword _).trans hidle.held, ?_, fun v => (hidle.outside v).step hat ha⟩⟩
        rw [written_append, hitems, List.append_nil, hidle.written]
  · by_cases ht : t = u
    · subst ht
      rw [hbusy.inside] at hat
      cases rest with
      | nil =>
        obtain ⟨rfl, rfl⟩ := List.cons.inj hat
        exact ⟨_, .inl hbusy.unlock⟩
      | cons x rest =>
        obtain ⟨rfl, rfl⟩ := List.cons.inj hat
        exact ⟨done, .inr ⟨t, c, part ++ [x], rest, ps, hbusy.put⟩⟩
    · rcases hbusy.outside t ht with ⟨qs, hqs, -⟩
      rcases acts_cases (hqs.symm.trans hat) with ⟨-, -, hlock, -⟩ | ⟨ha, hword, hitems, -⟩
      · exact absurd (hfree hlock) (by rw [hbusy.held]; exact nofun)
      · have hut : u ≠ t := fun heq => ht heq.symm
        refine ⟨done, .inr ⟨u, c, part, rest, ps, (hword _).trans hbusy.held, ?_, hbusy.section_eq,
          ?_, hbusy.inOrder, fun v hv => (hbusy.outside v hv).step hat ha⟩⟩
        · rw [written_append, hitems, List.append_nil, hbusy.written]
        · exact (update_of_ne hut ..).trans hbusy.inside

theorem Inv.other (h : Inv prog text s) (x : α) :
    Inv prog text { s with items := s.items ++ [⟨none, false, x⟩] } := by
  have hwritten : written (s.items ++ [⟨none, false, x⟩]) = written s.items := by
    rw [written_append]
    exact List.append_nil _
  rcases h with ⟨done, hidle | ⟨t, c, part, rest, ps, hbusy⟩⟩
  · exact ⟨done, .inl { hidle with written := hwritten.trans hidle.written }⟩
  · exact ⟨done, .inr ⟨t, c, part, rest, ps,
      { hbusy with written := hwritten.trans hbusy.written }⟩⟩

theorem inv_of_reachable (h : Reachable (Output.Init text prog) Output.Next s) :
    Inv prog text s := by
  refine h.invariant ?_ ?_
  · rintro s ⟨hheld, htodo, hitems⟩
    exact ⟨[], .inl ⟨hheld, by rw [hitems]; rfl, fun t => ⟨prog t, htodo t, rfl⟩⟩⟩
  · intro s s' hnext hinv
    cases hnext with
    | step t hstep => exact hinv.step hstep
    | other x => exact hinv.other x

/-- The items written with the lock held, told apart: the sections `done`, and `part` of one
more. -/
structure Split (prog : T → List (Piece S α)) (text : S → List α) (s : Output T α)
    (done : List (T × S)) (part : List (T × α)) : Prop where
  written : written s.items = itemsOf text done ++ part
  inOrder : ∀ t, finishedBy t done <+: sections (prog t)
  part : part ≠ [] → s.held = true ∧ ∃ t c n, finishedBy t done ++ [c] <+: sections (prog t) ∧
    part = ((text c).take n).map (t, ·)

theorem Outside.sections_le {todo : List (Act α)} (h : Outside prog text done t todo) :
    finishedBy t done <+: sections (prog t) := by
  rcases h with ⟨ps, -, horder⟩
  exact ⟨_, horder.symm⟩

theorem Inv.split (h : Inv prog text s) : ∃ done part, Split prog text s done part := by
  rcases h with ⟨done, hidle | ⟨t, c, part, rest, ps, hbusy⟩⟩
  · refine ⟨done, [], ?_, fun t => (hidle.outside t).sections_le, fun hne => absurd rfl hne⟩
    rw [hidle.written, List.append_nil]
  · refine ⟨done, part.map (t, ·), hbusy.written, fun u => ?_, fun _ => ⟨hbusy.held, t, c,
      part.length, ⟨sections ps, ?_⟩, ?_⟩⟩
    · by_cases hu : u = t
      · rw [hu]
        exact ⟨_, hbusy.inOrder.symm⟩
      · exact (hbusy.outside u hu).sections_le
    · rw [hbusy.inOrder, List.append_assoc]
      rfl
    · rw [hbusy.section_eq, List.take_left]

/-- What a writer has written and what it has left are its program. -/
theorem kept_of_reachable (h : Reachable (Output.Init text prog) Output.Next s) :
    ∀ t, sentBy t s.items ++ left (s.todo t) = left (acts text (prog t)) := by
  apply h.invariant
  · rintro s ⟨-, htodo, hitems⟩ t
    rw [htodo, hitems]
    rfl
  · intro s s' hnext hkept u
    rw [← hkept u]
    cases hnext with
    | step t hstep =>
      rcases hstep with ⟨hat, -⟩
      rename_i a todo
      by_cases hu : u = t
      · subst hu
        rw [hat]
        cases a <;> simp [sentBy, left, Act.items]
      · have hne : ¬ t = u := fun heq => hu heq.symm
        cases a <;> simp [sentBy, Act.items, hu, hne]
    | other => simp [sentBy]

/-! ## Progress of the lock -/

/-- The holder finishes its section by steps of its own, and releases the lock. -/
theorem Busy.release (h : Busy prog text s done t c part rest ps) :
    ∃ s', ReflTransGen (Output.Step t) s s' ∧ Idle prog text s' (done ++ [(t, c)]) ∧
      s'.todo t = acts text ps ∧ ∀ u, u ≠ t → s'.todo u = s.todo u := by
  induction rest generalizing s part with
  | nil =>
    exact ⟨_, .single (.act h.inside nofun), h.unlock, update_self ..,
      fun u hu => update_of_ne hu ..⟩
  | cons x rest ih =>
    rcases ih h.put with ⟨s', hrun, hidle, hthen, hothers⟩
    refine ⟨s', .head (.act h.inside nofun) hrun, hidle, hthen, fun u hu => ?_⟩
    rw [hothers u hu]
    exact update_of_ne hu ..

theorem Idle.served (h : Idle prog text s done) (hat : s.todo t = .lock :: todo) :
    ∃ s' c ps, ReflTransGen (Output.Step t) s s' ∧ todo = closing (text c) ++ acts text ps ∧
      s'.todo t = acts text ps := by
  rcases h.lock hat with ⟨c, ps, htodo, hbusy⟩
  rcases hbusy.release with ⟨s', hrun, -, hthen, -⟩
  exact ⟨s', c, ps, .head (.act hat fun _ => h.held) hrun, htodo, hthen⟩

/-- A writer in front of a section: the holder of the lock, if there is one, can leave its own
section, and then the writer can write all of its. -/
theorem Inv.served (h : Inv prog text s) (hat : s.todo t = .lock :: todo) :
    ∃ u s₁ s₂ c ps, ReflTransGen (Output.Step u) s s₁ ∧ ReflTransGen (Output.Step t) s₁ s₂ ∧
      todo = closing (text c) ++ acts text ps ∧ s₂.todo t = acts text ps := by
  rcases h with ⟨done, hidle | ⟨u, c', part, rest, ps', hbusy⟩⟩
  · rcases hidle.served hat with ⟨s', c, ps, hrun, hthen⟩
    exact ⟨t, s, s', c, ps, .refl, hrun, hthen⟩
  · have htu : t ≠ u := by
      rintro rfl
      rw [hbusy.inside] at hat
      cases rest with
      | nil => cases hat
      | cons => cases hat
    rcases hbusy.release with ⟨s₁, hrun₁, hidle, -, hothers⟩
    rcases hidle.served ((hothers t htu).trans hat) with ⟨s₂, c, ps, hrun₂, hthen⟩
    exact ⟨u, s₁, s₂, c, ps, hrun₁, hrun₂, hthen⟩

end Safety

end Sections
