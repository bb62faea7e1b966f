import Orchid.Core.SpinLock

/-! # Interrupts on one processor

Threads run lock programs on one processor. At any step of the current thread
an interrupt may arrive, if it is allowed to; its handler then runs on top of
the interrupted operation, to its end, before the operation goes on. A
handler that requests a lock of the operation below it spins for ever.
-/

namespace SpinLock

open Machine Function

variable {L T K : Type*}

/-- The locks some path of the program requests. -/
def Prog.Requests : Prog L → L → Prop
  | .skip, _ => False
  | .act a, l => a = .lock l
  | .seq p q, l => p.Requests l ∨ q.Requests l
  | .alt p q, l => p.Requests l ∨ q.Requests l
  | .loop p, l => p.Requests l

section Requests

variable {p q : Prog L} {a : Act L} {l l' : L}

@[simp] theorem Prog.requests_skip : ¬ (skip : Prog L).Requests l := id

@[simp] theorem Prog.requests_act : (act a).Requests l ↔ a = .lock l := .rfl

@[simp] theorem Prog.requests_seq : (seq p q).Requests l ↔ p.Requests l ∨ q.Requests l := .rfl

@[simp] theorem Prog.requests_alt : (alt p q).Requests l ↔ p.Requests l ∨ q.Requests l := .rfl

@[simp] theorem Prog.requests_loop : (loop p).Requests l ↔ p.Requests l := .rfl

@[simp] theorem Prog.requests_lock : (lock l' p).Requests l ↔ l = l' ∨ p.Requests l := by
  rw [lock, requests_seq, requests_act, Act.lock.injEq, eq_comm]

@[simp] theorem Prog.requests_unlock : (unlock l' p).Requests l ↔ p.Requests l := by
  rw [unlock, requests_seq, requests_act]
  simp

end Requests

theorem Prog.Trace.requests {p : Prog L} {xs : List (Act L)} (h : p.Trace xs) {l : L}
    (hl : .lock l ∈ xs) : p.Requests l := by
  induction h with
  | skip => simp at hl
  | act a => exact (List.mem_singleton.mp hl).symm
  | seq _ _ ihp ihq => exact (List.mem_append.mp hl).imp ihp ihq
  | left _ ih => exact .inl (ih hl)
  | right _ ih => exact .inr (ih hl)
  | done => simp at hl
  | again _ _ ihp ihq => exact (List.mem_append.mp hl).elim ihp ihq

/-- A thread's operation, and the handler that interrupted it. -/
structure Context (L : Type*) where
  op : Frame L
  irq : Option (Frame L)

/-- The lock words, the thread on the processor, and all threads. -/
structure Cpu (T L : Type*) where
  word : L → Bool
  cur : T
  ctx : T → Context L

/-- Only a switch changes the thread on the processor. -/
def Act.Leads (cur next : T) : Act L → Prop
  | .switch => True
  | _ => next = cur

namespace Cpu

variable [DecidableEq L] [DecidableEq T]

/-- The state with the current thread's context replaced. -/
def put (s : Cpu T L) (c : Context L) : Cpu T L :=
  { s with ctx := update s.ctx s.cur c }

omit [DecidableEq L] in
@[simp] theorem ctx_put (s : Cpu T L) (c : Context L) : (s.put c).ctx s.cur = c :=
  update_self ..

def Init : StatePred (Cpu T L) := fun s =>
  (∀ l, s.word l = false) ∧ ∀ t, s.ctx t = ⟨⟨[], []⟩, none⟩

variable (ops : Set (Prog L)) (handler : K → Prog L) (allowed : List L → K → Prop)

/-- The current thread starts an operation or takes its next step; an
interrupt arrives, which is up to what the thread holds; the handler takes its
next step or returns. -/
inductive Next : Action (Cpu T L) where
  | start {s : Cpu T L} {held : List L} {p : Prog L} {xs : List (Act L)} :
      s.ctx s.cur = ⟨⟨[], held⟩, none⟩ → p ∈ ops → p.Trace xs →
      Next s (s.put ⟨⟨xs, held⟩, none⟩)
  | op {s : Cpu T L} {held : List L} {a : Act L} {xs : List (Act L)} (next : T) :
      s.ctx s.cur = ⟨⟨a :: xs, held⟩, none⟩ → a.Enabled s.word → a.Leads s.cur next →
      Next s { s.put ⟨⟨xs, a.hold held⟩, none⟩ with word := a.onWord s.word, cur := next }
  | interrupt {s : Cpu T L} {f : Frame L} {k : K} {xs : List (Act L)} :
      s.ctx s.cur = ⟨f, none⟩ → allowed f.held k → (handler k).Trace xs →
      Next s (s.put ⟨f, some ⟨xs, []⟩⟩)
  | irq {s : Cpu T L} {f : Frame L} {held : List L} {a : Act L} {xs : List (Act L)} (next : T) :
      s.ctx s.cur = ⟨f, some ⟨a :: xs, held⟩⟩ → a.Enabled s.word → a.Leads s.cur next →
      Next s { s.put ⟨f, some ⟨xs, a.hold held⟩⟩ with word := a.onWord s.word, cur := next }
  | iret {s : Cpu T L} {f : Frame L} {held : List L} :
      s.ctx s.cur = ⟨f, some ⟨[], held⟩⟩ → Next s (s.put ⟨f, none⟩)

/-- The handler on the processor spins on a lock of the operation it
interrupted. -/
def Spins (s : Cpu T L) : Prop :=
  ∃ f l xs held, s.ctx s.cur = ⟨f, some ⟨.lock l :: xs, held⟩⟩ ∧ s.word l = true ∧ l ∈ f.held

/-- No interrupt is allowed at a point of an operation that holds a lock its
handler requests. -/
def Masked : Prop :=
  ∀ p ∈ ops, ∀ xs ys, p.Trace (xs ++ ys) → ∀ k, allowed (holding xs []) k →
    ∀ l ∈ holding xs [], ¬ (handler k).Requests l

/-! ## Masked interrupts never spin -/

section Safe

variable {ops handler allowed}

/-- What holds of every thread: its operation is somewhere on a path of its
program, and its handler requests nothing of it any more. -/
structure Sound (ops : Set (Prog L)) (c : Context L) : Prop where
  op : c.op = ⟨[], []⟩ ∨ ∃ p ∈ ops, ∃ xs, p.Trace (xs ++ c.op.todo) ∧ holding xs [] = c.op.held
  irq : ∀ g, c.irq = some g → ∀ l, .lock l ∈ g.todo → l ∉ c.op.held

/-- Only the context of the current thread changes. -/
theorem sound_put {s : Cpu T L} {c : Context L} (hinv : ∀ t, Sound ops (s.ctx t))
    (hc : Sound ops c) (t : T) : Sound ops (update s.ctx s.cur c t) := by
  by_cases ht : t = s.cur
  · subst ht
    rwa [update_self]
  · rw [update_of_ne ht]
    exact hinv t

theorem next_sound {rank : L → ℕ} {b : ℕ} (hops : ∀ p ∈ ops, p.Keeps rank b)
    (hmask : Masked ops handler allowed) {s s' : Cpu T L}
    (hnext : Next ops handler allowed s s') (hinv : ∀ t, Sound ops (s.ctx t)) :
    ∀ t, Sound ops (s'.ctx t) := by
  have hcur := hinv s.cur
  cases hnext with
  | @start _ held p xs hctx hp htrace =>
    rw [hctx] at hcur
    -- between operations nothing is held
    have hheld : held = [] := by
      rcases hcur.op with h | ⟨q, hq, ys, hys, hheld⟩
      · exact congrArg Frame.held h
      · exact hheld.symm.trans (hops q hq [] (above_nil b) ys (by simpa using hys)).2
    subst hheld
    refine sound_put hinv ⟨.inr ⟨p, hp, [], htrace, rfl⟩, ?_⟩
    intro g hg
    cases hg
  | @op _ held a xs next hctx _ _ =>
    rw [hctx] at hcur
    refine sound_put hinv ⟨?_, fun g hg => by cases hg⟩
    rcases hcur.op with h | ⟨q, hq, ys, hys, hheld⟩
    · cases h
    · refine .inr ⟨q, hq, ys ++ [a], by simpa using hys, ?_⟩
      have hheld : holding ys [] = held := hheld
      simp [hheld]
  | @interrupt _ f k xs hctx hallowed htrace =>
    rw [hctx] at hcur
    refine sound_put hinv ⟨hcur.op, ?_⟩
    rintro g ⟨⟩ l hl hheld
    rcases hcur.op with h | ⟨q, hq, ys, hys, hys'⟩
    · have hheld : l ∈ f.held := hheld
      have hf : f = ⟨[], []⟩ := h
      simp [hf] at hheld
    · have hys' : holding ys [] = f.held := hys'
      have hallowed : allowed (holding ys []) k := hys' ▸ hallowed
      exact hmask q hq ys _ hys k hallowed l (hys' ▸ hheld) (htrace.requests hl)
  | @irq _ f held a xs next hctx _ _ =>
    rw [hctx] at hcur
    refine sound_put hinv ⟨hcur.op, ?_⟩
    rintro g ⟨⟩ l hl
    exact hcur.irq _ rfl l (List.mem_cons_of_mem a hl)
  | @iret _ f held hctx =>
    rw [hctx] at hcur
    exact sound_put hinv ⟨hcur.op, fun g hg => by cases hg⟩

theorem not_spins {rank : L → ℕ} {b : ℕ} (hops : ∀ p ∈ ops, p.Keeps rank b)
    (hmask : Masked ops handler allowed) {s : Cpu T L}
    (h : Reachable Init (Next ops handler allowed) s) : ¬ s.Spins := by
  have hinv : ∀ t, Sound ops (s.ctx t) := by
    apply h.invariant
    · intro s hinit t
      rw [hinit.2 t]
      exact ⟨.inl rfl, fun g hg => by cases hg⟩
    · intro s s' hnext hinv
      exact next_sound hops hmask hnext hinv
  rintro ⟨f, l, xs, held, hctx, _, hmem⟩
  have hcur := hinv s.cur
  rw [hctx] at hcur
  exact hcur.irq _ rfl l List.mem_cons_self hmem

end Safe

/-! ## An interrupt that is not masked can spin -/

section Spin

variable {ops handler allowed}

/-- The lock words while only one thread has run: set are the locks `h` of its
operation and `g` of its handler. -/
structure Words (h g : List L) (word : L → Bool) : Prop where
  nodup : g.Nodup
  apart : ∀ l ∈ g, l ∉ h
  iff : ∀ l, word l = true ↔ l ∈ h ∨ l ∈ g

/-- A step that neither takes nor clears a lock of `h` can be taken. -/
theorem Words.act {rank : L → ℕ} {h g : List L} {word : L → Bool} (hw : Words h g word)
    {a : Act L} (hok : a.Ok rank g) (hlock : ∀ l ∈ h, a ≠ .lock l) (hclear : ∀ l ∈ h, a ≠ .clear l) :
    a.Enabled word ∧ Words h (a.hold g) (a.onWord word) := by
  cases a with
  | lock l =>
    have hg : l ∉ g := Above.notMem hok
    have hh : l ∉ h := fun hl => hlock l hl rfl
    refine ⟨?_, List.nodup_cons.mpr ⟨hg, hw.nodup⟩, ?_, ?_⟩
    · apply Bool.eq_false_iff.mpr
      intro hl
      exact ((hw.iff l).mp hl).elim hh hg
    · intro k hk
      rcases List.mem_cons.mp hk with rfl | hk
      · exact hh
      · exact hw.apart k hk
    · intro k
      by_cases hk : k = l
      · simp [Act.onWord, Act.hold, hk]
      · simp [Act.onWord, Act.hold, hk, hw.iff k]
  | unlock l =>
    have hh : l ∉ h := hw.apart l hok
    refine ⟨trivial, hw.nodup.erase l, fun k hk => hw.apart k (List.mem_of_mem_erase hk), ?_⟩
    intro k
    by_cases hk : k = l
    · simp [Act.onWord, Act.hold, hk, hh, hw.nodup.mem_erase_iff]
    · simp [Act.onWord, Act.hold, hk, hw.iff k, hw.nodup.mem_erase_iff]
  | clear l =>
    have hh : l ∉ h := fun hl => hclear l hl rfl
    have hg : l ∉ g := hok
    refine ⟨trivial, hw.nodup, hw.apart, ?_⟩
    intro k
    by_cases hk : k = l
    · simp [Act.onWord, Act.hold, hk, hh, hg]
    · simp [Act.onWord, Act.hold, hk, hw.iff k]
  | switch => exact ⟨trivial, hw⟩

omit [DecidableEq L] [DecidableEq T] in
theorem leads_self (a : Act L) (t : T) : a.Leads t t := by
  cases a <;> simp [Act.Leads]

/-- A thread alone on the processor gets to every point of its operation. -/
theorem exists_at_point {rank : L → ℕ} {xs ys : List (Act L)} {s : Cpu T L} {held : List L}
    (h : Reachable Init (Next ops handler allowed) s)
    (hctx : s.ctx s.cur = ⟨⟨xs ++ ys, held⟩, none⟩) (hobeys : Obeys rank xs held)
    (hw : Words [] held s.word) :
    ∃ s' : Cpu T L, Reachable Init (Next ops handler allowed) s' ∧
      s'.ctx s'.cur = ⟨⟨ys, holding xs held⟩, none⟩ ∧ Words [] (holding xs held) s'.word := by
  induction xs generalizing s held with
  | nil => exact ⟨s, h, hctx, hw⟩
  | cons a xs ih =>
    obtain ⟨henabled, hw'⟩ := hw.act hobeys.1 (by simp) (by simp)
    have hstep := h.step (.op s.cur hctx henabled (leads_self a s.cur))
    exact ih hstep (s.ctx_put _) hobeys.2 hw'

/-- A handler that requests a lock of the operation below it comes to spin on
one. -/
theorem exists_spins {rank : L → ℕ} {f : Frame L} {l : L} (hl : l ∈ f.held)
    {zs : List (Act L)} {s : Cpu T L} {g : List L}
    (h : Reachable Init (Next ops handler allowed) s)
    (hctx : s.ctx s.cur = ⟨f, some ⟨zs, g⟩⟩) (hobeys : Obeys rank zs g)
    (hclear : ∀ m, .clear m ∉ zs) (hmem : .lock l ∈ zs) (hw : Words f.held g s.word) :
    ∃ s' : Cpu T L, Reachable Init (Next ops handler allowed) s' ∧ s'.Spins := by
  induction zs generalizing s g with
  | nil => simp at hmem
  | cons a zs ih =>
    by_cases hhit : ∃ m ∈ f.held, a = .lock m
    · -- the first lock of the operation that the handler asks for
      obtain ⟨m, hm, rfl⟩ := hhit
      exact ⟨s, h, f, m, zs, g, hctx, (hw.iff m).mpr (.inl hm), hm⟩
    · have hlock : ∀ m ∈ f.held, a ≠ .lock m := fun m hm ha => hhit ⟨m, hm, ha⟩
      have hclear' : ∀ m ∈ f.held, a ≠ .clear m := by
        rintro m _ rfl
        exact hclear m List.mem_cons_self
      obtain ⟨henabled, hw'⟩ := hw.act hobeys.1 hlock hclear'
      have hstep := h.step (.irq s.cur hctx henabled (leads_self a s.cur))
      have htail : .lock l ∈ zs := by
        rcases List.mem_cons.mp hmem with ha | htail
        · exact absurd ha.symm (hlock l hl)
        · exact htail
      exact ih hstep (s.ctx_put _) hobeys.2 (fun m hm => hclear m (List.mem_cons_of_mem a hm))
        htail hw'

/-- Handlers never spin on the operation they interrupt exactly if they are
masked while it holds a lock they request. Each request of a handler has to
be on a path of it that clears no lock. -/
theorem forall_not_spins_iff [Inhabited T] {rank : L → ℕ} {b : ℕ}
    (hops : ∀ p ∈ ops, p.Keeps rank b) (hhandler : ∀ k, (handler k).Keeps rank b)
    (hpath : ∀ k l, (handler k).Requests l →
      ∃ zs, (handler k).Trace zs ∧ .lock l ∈ zs ∧ ∀ m, .clear m ∉ zs) :
    (∀ s : Cpu T L, Reachable Init (Next ops handler allowed) s → ¬ s.Spins) ↔
      Masked ops handler allowed := by
  constructor
  · intro hsafe p hp xs ys htrace k hallowed l hl hreq
    obtain ⟨zs, hzs, hmem, hclear⟩ := hpath k l hreq
    -- boot, and the operation up to the interrupt
    have hboot : Reachable Init (Next ops handler allowed)
        (⟨fun _ => false, default, fun _ => ⟨⟨[], []⟩, none⟩⟩ : Cpu T L) :=
      .init ⟨fun _ => rfl, fun _ => rfl⟩
    have hstart := hboot.step (.start rfl hp htrace)
    have hobeys := (obeys_append.mp (hops p hp [] (above_nil b) _ htrace).1).1
    obtain ⟨s, hs, hctx, hw⟩ := exists_at_point hstart (ctx_put ..) hobeys
      ⟨List.nodup_nil, by simp, by simp [put]⟩
    -- the interrupt, and the handler up to the lock
    have hirq := hs.step (.interrupt hctx hallowed hzs)
    have hwords : Words (holding xs []) [] s.word := by
      refine ⟨List.nodup_nil, by simp, ?_⟩
      intro m
      rw [hw.iff m, or_comm]
    obtain ⟨s', hs', hspins⟩ := exists_spins (f := ⟨ys, holding xs []⟩) hl hirq (ctx_put ..)
      (hhandler k [] (above_nil b) zs hzs).1 hclear hmem hwords
    exact hsafe s' hs' hspins
  · intro hmask s hs
    exact not_spins hops hmask hs

end Spin

end Cpu

end SpinLock
