import Mathlib.Data.List.Nodup
import Mathlib.Logic.Function.Basic

/-!
# Programs that keep their effects when they fail

A `Program σ ε α` changes a state `σ` and ends with a value or an error.  The
state it has reached when it fails is kept: nothing is rolled back.

The second half of the module describes such a program by the flat list of
steps it takes.  A step has a fault, if it is going to fail, and an effect
which overwrites at most one observable cell.  For a list of steps that write
distinct cells, `runSteps_keeps_iff` says exactly when an error leaves every
cell as it was.
-/

namespace GoWarp.Support

/-- Two conditionals whose branches are related by `g`. -/
theorem ite_eq_apply {α β : Type} {g : α → β} {c : Prop} [Decidable c] {a b : α} {a' b' : β}
    (ha : a' = g a) (hb : b' = g b) : (if c then a' else b') = g (if c then a else b) := by
  rw [apply_ite g, ha, hb]

/-- A program over states `σ` with errors `ε`. -/
abbrev Program (σ ε : Type) := ExceptT ε (StateM σ)

namespace Program

variable {σ ε α β : Type}

/-- The outcome and the final state of a program. -/
def exec (p : Program σ ε α) (s : σ) : Except ε α × σ := p s

/-- Stop with the error, if there is one. -/
def failOn (fault : Option ε) : Program σ ε Unit :=
  match fault with
  | none => pure ()
  | some e => throw e

/-- Fail with the fault, if there is one, and have the effect otherwise. -/
def perform (fault : Option ε) (effect : σ → σ) : Program σ ε Unit := do
  failOn fault
  modify effect

/-- Run `f` over a list and collect what it defers. -/
def collect (f : α → Program σ ε (Option β)) : List α → Program σ ε (List β)
  | [] => pure []
  | a :: rest => do
    let deferred ← f a
    let more ← collect f rest
    pure (deferred.toList ++ more)

/-- Run `f` over a list. -/
def forEach (f : α → Program σ ε Unit) : List α → Program σ ε Unit
  | [] => pure ()
  | a :: rest => do
    f a
    forEach f rest

@[simp] theorem exec_get (s : σ) : exec (get : Program σ ε σ) s = (.ok s, s) := rfl

@[simp] theorem exec_ofExcept (r : Except ε α) (s : σ) :
    exec (MonadExcept.ofExcept r : Program σ ε α) s = (r, s) := by
  cases r <;> rfl

theorem exec_bind (p : Program σ ε α) (f : α → Program σ ε β) (s : σ) : exec (p >>= f) s =
      match exec p s with
      | (.ok a, s') => exec (f a) s'
      | (.error e, s') => (.error e, s') := by
  change (match p s with
    | (r, s') => (match r with
      | .ok a => f a
      | .error e => pure (.error e) : StateM σ (Except ε β)) s') = _
  cases h : exec p s with
  | mk r s' =>
    have hp : p s = (r, s') := h
    rw [hp]
    cases r <;> rfl

variable {f : α → Program σ ε β}

theorem exec_bind_ok {p : Program σ ε α} {s s' : σ} {a : α} (h : exec p s = (.ok a, s')) :
    exec (p >>= f) s = exec (f a) s' := by
  rw [exec_bind, h]

theorem exec_bind_error {p : Program σ ε α} {s s' : σ} {e : ε} (h : exec p s = (.error e, s')) :
    exec (p >>= f) s = (.error e, s') := by
  rw [exec_bind, h]

@[simp] theorem exec_perform_none (effect : σ → σ) (s : σ) :
    exec (perform none effect : Program σ ε Unit) s = (.ok (), effect s) := rfl

@[simp] theorem exec_perform_some (e : ε) (effect : σ → σ) (s : σ) :
    exec (perform (some e) effect : Program σ ε Unit) s = (.error e, s) := rfl

/-! ## What every outcome keeps -/

/-- Whatever its outcome, the program keeps `P`. -/
def Preserves (P : σ → Prop) (p : Program σ ε α) : Prop := ∀ s, P s → P (exec p s).2

namespace Preserves

variable {P : σ → Prop}

theorem pure (a : α) : Preserves P (Pure.pure a : Program σ ε α) := fun _ hs => hs

theorem throw (e : ε) : Preserves P (MonadExcept.throw e : Program σ ε α) := fun _ hs => hs

theorem ofExcept (r : Except ε α) : Preserves P (MonadExcept.ofExcept r : Program σ ε α) := by
  intro s hs
  rw [exec_ofExcept]
  exact hs

theorem modify {effect : σ → σ} (h : ∀ s, P s → P (effect s)) :
    Preserves P (modify effect : Program σ ε Unit) :=
  h

theorem failOn (fault : Option ε) : Preserves P (Program.failOn fault : Program σ ε Unit) := by
  cases fault with
  | none => exact fun _ hs => hs
  | some e => exact fun _ hs => hs

theorem perform (fault : Option ε) {effect : σ → σ} (h : ∀ s, P s → P (effect s)) :
    Preserves P (Program.perform fault effect : Program σ ε Unit) := by
  cases fault with
  | none => exact h
  | some e => exact fun _ hs => hs

variable {p : Program σ ε α} {f : α → Program σ ε β}

theorem snd_bind_of {Q : σ → Prop} {s : σ} (hp : P (exec p s).2) (hweaken : ∀ s', P s' → Q s')
    (hf : ∀ a s', P s' → Q (exec (f a) s').2) :
    Q (exec (p >>= f) s).2 := by
  rw [exec_bind]
  rcases hexec : exec p s with ⟨e | a, s'⟩ <;> rw [hexec] at hp
  · exact hweaken s' hp
  · exact hf a s' hp

theorem snd_bind {s : σ} (hp : P (exec p s).2) (hf : ∀ a, Preserves P (f a)) :
    P (exec (p >>= f) s).2 :=
  snd_bind_of hp (fun _ h => h) hf

theorem bind (hp : Preserves P p) (hf : ∀ a, Preserves P (f a)) : Preserves P (p >>= f) :=
  fun s hs => snd_bind (hp s hs) hf

theorem get_bind {f : σ → Program σ ε β} (hf : ∀ s, P s → Preserves P (f s)) :
    Preserves P (MonadState.get >>= f) :=
  fun s hs => hf s hs s hs

end Preserves

/-! ## Two programs side by side -/

section Relates

variable {τ : Type} {R R' : σ → τ → Prop}

/-- From states related by `R`, the two programs have the same outcome and
reach states related by `R'`. -/
def Relates (R R' : σ → τ → Prop) (p : Program σ ε α) (q : Program τ ε α) :
    Prop :=
  ∀ s t, R s t → (exec p s).1 = (exec q t).1 ∧ R' (exec p s).2 (exec q t).2

namespace Relates

section

variable (h : ∀ s t, R s t → R' s t)
include h

theorem pure (a : α) : Relates R R' (Pure.pure a : Program σ ε α) (Pure.pure a) :=
  fun s t hst => ⟨rfl, h s t hst⟩

theorem throw (e : ε) : Relates R R' (MonadExcept.throw e : Program σ ε α) (MonadExcept.throw e) :=
  fun s t hst => ⟨rfl, h s t hst⟩

theorem ofExcept (r : Except ε α) :
    Relates R R' (MonadExcept.ofExcept r : Program σ ε α) (MonadExcept.ofExcept r) := by
  intro s t hst
  rw [exec_ofExcept, exec_ofExcept]
  exact ⟨rfl, h s t hst⟩

theorem failOn (fault : Option ε) :
    Relates R R' (Program.failOn fault : Program σ ε Unit) (Program.failOn fault) := by
  cases fault with
  | none => exact pure h ()
  | some e => exact throw h e

end

theorem modify {effect : σ → σ} {effect' : τ → τ} (h : ∀ s t, R s t → R' (effect s) (effect' t)) :
    Relates R R' (modify effect : Program σ ε Unit) (modify effect') :=
  fun s t hst => ⟨rfl, h s t hst⟩

variable {R₁ : σ → τ → Prop} {p : Program σ ε α} {q : Program τ ε α} {f : α → Program σ ε β}
  {g : α → Program τ ε β}

theorem bind (hp : Relates R R₁ p q) (hweaken : ∀ s t, R₁ s t → R' s t)
    (hf : ∀ a, Relates R₁ R' (f a) (g a)) :
    Relates R R' (p >>= f) (q >>= g) := by
  intro s t hst
  obtain ⟨hout, hmid⟩ := hp s t hst
  rw [exec_bind, exec_bind]
  rcases hexec : exec p s with ⟨e | a, s'⟩
  · rcases hexec' : exec q t with ⟨e' | a', t'⟩
    · rw [hexec, hexec'] at hout hmid
      exact ⟨congrArg Except.error (Except.error.inj hout), hweaken _ _ hmid⟩
    · rw [hexec, hexec'] at hout
      cases hout
  · rcases hexec' : exec q t with ⟨e' | a', t'⟩
    · rw [hexec, hexec'] at hout
      cases hout
    · rw [hexec, hexec'] at hout hmid
      obtain rfl := Except.ok.inj hout
      exact hf a s' t' hmid

theorem seq (hp : Relates R R' p q) (hf : ∀ a, Relates R' R' (f a) (g a)) :
    Relates R R' (p >>= f) (q >>= g) :=
  bind hp (fun _ _ h => h) hf

theorem perform (hweaken : ∀ s t, R s t → R' s t) (fault : Option ε)
    {effect : σ → σ} {effect' : τ → τ} (h : ∀ s t, R s t → R' (effect s) (effect' t)) :
    Relates R R' (Program.perform fault effect : Program σ ε Unit)
      (Program.perform fault effect') :=
  bind (failOn (fun _ _ hst => hst) fault) hweaken fun _ => modify h

theorem checked (hR : ∀ s t, R s t → R₁ s t) (hweaken : ∀ s t, R₁ s t → R' s t)
    (h : Relates R₁ R' p q) (fault : Option ε) (twice : Bool) (fault' : Option ε) :
    Relates R R' (do
        Program.failOn fault
        if twice then Program.failOn fault'
        p)
      (do
        Program.failOn fault
        if twice then Program.failOn fault'
        q) := by
  refine bind (failOn hR fault) hweaken fun _ => ?_
  split
  · exact bind (failOn (fun _ _ hst => hst) fault') hweaken fun _ => h
  · exact h

theorem get_bind {f : σ → Program σ ε β} {g : τ → Program τ ε β} (hf : ∀ s t, R s t →
      Relates (fun s' t' => s' = s ∧ t' = t) R' (f s) (g t)) :
    Relates R R' (MonadState.get >>= f) (MonadState.get >>= g) :=
  fun s t hst => hf s t hst s t ⟨rfl, rfl⟩

theorem mono {R₁ R₁' : σ → τ → Prop} (h : Relates R R' p q)
    (hpre : ∀ s t, R₁ s t → R s t) (hpost : ∀ s t, R' s t → R₁' s t) :
    Relates R₁ R₁' p q := by
  intro s t hst
  obtain ⟨hout, hend⟩ := h s t (hpre s t hst)
  exact ⟨hout, hpost _ _ hend⟩

end Relates

end Relates

/-- At `g s` the second program does what the first one does at `s`, with the
same outcome. -/
def Maps {τ : Type} (g : σ → τ) (p : Program σ ε α) (q : Program τ ε α) (s : σ) : Prop :=
  exec q (g s) = ((exec p s).1, g (exec p s).2)

namespace Maps

variable {τ : Type} {g : σ → τ} {s : σ}

theorem pure (a : α) : Maps g (Pure.pure a : Program σ ε α) (Pure.pure a) s := rfl

theorem ofExcept (r : Except ε α) :
    Maps g (MonadExcept.ofExcept r : Program σ ε α) (MonadExcept.ofExcept r) s := by
  rw [Maps, exec_ofExcept, exec_ofExcept]

theorem failOn_bind (fault : Option ε) {f : Unit → Program σ ε α} {f' : Unit → Program τ ε α}
    (h : Maps g (f ()) (f' ()) s) :
    Maps g (Program.failOn fault >>= f) (Program.failOn fault >>= f') s := by
  cases fault with
  | none => exact h
  | some e => rfl

theorem perform (fault : Option ε) {effect : σ → σ} {effect' : τ → τ}
    (h : effect' (g s) = g (effect s)) :
    Maps g (Program.perform fault effect : Program σ ε Unit) (Program.perform fault effect') s := by
  cases fault with
  | none => exact congrArg (Prod.mk _) h
  | some e => rfl

theorem bind {p : Program σ ε α} {q : Program τ ε α} {f : α → Program σ ε β}
    {f' : α → Program τ ε β} (hp : Maps g p q s) (hf : ∀ a s', Maps g (f a) (f' a) s') :
    Maps g (p >>= f) (q >>= f') s := by
  rw [Maps, exec_bind, exec_bind, hp]
  rcases exec p s with ⟨_ | a, s'⟩
  · rfl
  · exact hf a s'

theorem ite {c : Prop} [Decidable c] {p p' : Program σ ε α} {q q' : Program τ ε α}
    (hp : Maps g p q s) (hp' : Maps g p' q' s) :
    Maps g (if c then p else p') (if c then q else q') s := by
  split
  · exact hp
  · exact hp'

theorem get_bind {f : σ → Program σ ε β} {f' : τ → Program τ ε β}
    (h : Maps g (f s) (f' (g s)) s) : Maps g (MonadState.get >>= f) (MonadState.get >>= f') s :=
  h

theorem collect {f : α → Program σ ε (Option β)} {f' : α → Program τ ε (Option β)}
    (h : ∀ a s, Maps g (f a) (f' a) s) (l : List α) (s : σ) :
    Maps g (Program.collect f l) (Program.collect f' l) s := by
  induction l generalizing s with
  | nil => rfl
  | cons a rest ih => exact .bind (h a s) fun _ s' => .bind (ih s') fun _ _ => .pure _

theorem forEach {f : α → Program σ ε Unit} {f' : α → Program τ ε Unit}
    (h : ∀ a s, Maps g (f a) (f' a) s) (l : List α) (s : σ) :
    Maps g (Program.forEach f l) (Program.forEach f' l) s := by
  induction l generalizing s with
  | nil => rfl
  | cons a rest ih => exact .bind (h a s) fun _ => ih

theorem get_bind_self {g : σ → σ} {f : σ → Program σ ε β} (hf : f (g s) = f s)
    (h : Maps g (f s) (f s) s) : Maps g (MonadState.get >>= f) (MonadState.get >>= f) s := by
  apply get_bind
  rwa [hf]

end Maps

/-- The program never fails. -/
def Succeeds (p : Program σ ε α) : Prop := ∀ s, ∃ a s', exec p s = (.ok a, s')

variable {p : Program σ ε α} {τ : Type}

theorem Succeeds.bind {f : α → Program σ ε β}
    (hp : Succeeds p) (hf : ∀ a, Succeeds (f a)) : Succeeds (p >>= f) := by
  intro s
  obtain ⟨a, s', hexec⟩ := hp s
  rw [exec_bind_ok hexec]
  exact hf a s'

theorem Succeeds.pure (a : α) : Succeeds (Pure.pure a : Program σ ε α) := fun s => ⟨a, s, rfl⟩

theorem Succeeds.modify (effect : σ → σ) : Succeeds (modify effect : Program σ ε Unit) :=
  fun s => ⟨(), effect s, rfl⟩

theorem Succeeds.get_bind {f : σ → Program σ ε β}
    (hf : ∀ s, Succeeds (f s)) : Succeeds (MonadState.get >>= f) :=
  fun s => hf s s

theorem exec_tryCatch (p : Program σ ε α) (handler : ε → Program σ ε α) (s : σ) :
    exec (MonadExcept.tryCatch p handler) s =
      match exec p s with
      | (.ok a, s') => (.ok a, s')
      | (.error e, s') => exec (handler e) s' := by
  change (match p s with
    | (r, s') => (match r with
      | .ok a => .pure (.ok a)
      | .error e => handler e : StateM σ (Except ε α)) s') = _
  cases h : exec p s with
  | mk r s' =>
    have hp : p s = (r, s') := h
    rw [hp]
    cases r <;> rfl

theorem Relates.recover {R R' : σ → τ → Prop} {q : Program τ ε α} (h : Relates R R' p q) (a : α) :
    Relates R R' (MonadExcept.tryCatch p fun _ => Pure.pure a)
      (MonadExcept.tryCatch q fun _ => Pure.pure a) := by
  intro s t hst
  obtain ⟨hout, hend⟩ := h s t hst
  rw [exec_tryCatch, exec_tryCatch]
  rcases hp : exec p s with ⟨_ | _, s'⟩
  all_goals
    rw [hp] at hout hend
    rcases hq : exec q t with ⟨_ | _, t'⟩
    all_goals
      rw [hq] at hout hend
      cases hout
    exact ⟨rfl, hend⟩

theorem snd_tryCatch_pure (p : Program σ ε α) (a : α) (s : σ) :
    (exec (MonadExcept.tryCatch p fun _ => pure a) s).2 = (exec p s).2 := by
  rw [exec_tryCatch]
  rcases exec p s with ⟨e | b, s'⟩
  · rfl
  · rfl

theorem Succeeds.tryCatch (hp : Succeeds p) (handler : ε → Program σ ε α) :
    MonadExcept.tryCatch p handler = p := by
  funext s
  obtain ⟨a, s', hexec⟩ := hp s
  have hcaught := exec_tryCatch p handler s
  rw [hexec] at hcaught
  exact hcaught.trans hexec.symm

/-- Run a program on a part of the state. -/
def zoom {τ : Type} (part : σ → τ) (put : τ → σ → σ) (p : Program τ ε α) :
    Program σ ε α := fun s =>
  ((exec p (part s)).1, put (exec p (part s)).2 s)

theorem exec_zoom (part : σ → τ) (put : τ → σ → σ) (p : Program τ ε α) (s : σ) :
    exec (zoom part put p) s = ((exec p (part s)).1, put (exec p (part s)).2 s) :=
  rfl

theorem Succeeds.zoom {p : Program τ ε α} (hp : Succeeds p)
    (part : σ → τ) (put : τ → σ → σ) : Succeeds (zoom part put p) := by
  intro s
  obtain ⟨a, t, hexec⟩ := hp (part s)
  exact ⟨a, put t s, by rw [exec_zoom, hexec]⟩

end Program

/-! ## Steps -/

/-- One step of a program: the fault with which it fails, its effect when it
does not, and the observable cell the effect overwrites with what. -/
structure Step (σ ε ι β : Type) where
  fault : Option ε
  effect : σ → σ
  write : Option (ι × β)

namespace Step

variable {σ ε ι β : Type}

/-- A step that may fail and has no effect. -/
def check (fault : Option ε) : Step σ ε ι β := ⟨fault, id, none⟩

/-- The effect changes what `view` shows in the cell written, and nowhere
else. -/
def Sound [DecidableEq ι] (view : σ → ι → β) (step : Step σ ε ι β) : Prop :=
  ∀ s, view (step.effect s) =
    match step.write with
    | none => view s
    | some (i, b) => Function.update (view s) i b

/-- The cell written already holds what the step writes. -/
def Keeps (m : ι → β) (step : Step σ ε ι β) : Prop := ∀ i b, step.write = some (i, b) → m i = b

def cells (steps : List (Step σ ε ι β)) : List ι :=
  steps.filterMap fun step => step.write.map Prod.fst

@[simp] theorem cells_nil : cells ([] : List (Step σ ε ι β)) = [] := rfl

@[simp] theorem cells_check_cons (fault : Option ε) (steps : List (Step σ ε ι β)) :
    cells (check fault :: steps) = cells steps := rfl

@[simp] theorem cells_append (xs ys : List (Step σ ε ι β)) :
    cells (xs ++ ys) = cells xs ++ cells ys :=
  List.filterMap_append

theorem cells_flatMap {α : Type} (l : List α) (f : α → List (Step σ ε ι β)) :
    cells (l.flatMap f) = l.flatMap fun a => cells (f a) := by
  rw [cells, List.filterMap_flatMap]
  rfl

theorem nodup_cells_flatMap {α κ : Type} (key : α → κ) (owner : ι → κ)
    {f : α → List (Step σ ε ι β)} {l : List α} (hkeys : (l.map key).Nodup)
    (hnodup : ∀ a ∈ l, (cells (f a)).Nodup) (howner : ∀ a ∈ l, ∀ i ∈ cells (f a), owner i = key a) :
    (cells (l.flatMap f)).Nodup := by
  rw [cells_flatMap, List.nodup_flatMap]
  refine ⟨hnodup, ?_⟩
  apply (List.pairwise_map.mp hkeys).imp_of_mem
  intro a b ha hb hne i hia hib
  exact hne ((howner a ha i hia).symm.trans (howner b hb i hib))

theorem sound_check [DecidableEq ι] (view : σ → ι → β) (fault : Option ε) :
    Sound view (check fault : Step σ ε ι β) := by
  intro s
  rfl

variable {step : Step σ ε ι β} {s : σ} {m : ι → β}

theorem Sound.keeps [DecidableEq ι] {view : σ → ι → β} (hsound : step.Sound view)
    (hkeeps : step.Keeps (view s)) : view (step.effect s) = view s := by
  rw [hsound s]
  cases hwrite : step.write with
  | none => rfl
  | some p =>
    obtain ⟨i, b⟩ := p
    rw [← hkeeps i b hwrite]
    exact Function.update_eq_self i (view s)

/-- Run steps in order up to the first fault. -/
def runSteps : List (Step σ ε ι β) → σ → Option ε × σ
  | [], s => (none, s)
  | step :: rest, s =>
    match step.fault with
    | some e => (some e, s)
    | none => runSteps rest (step.effect s)

@[simp] theorem runSteps_nil (s : σ) : runSteps ([] : List (Step σ ε ι β)) s = (none, s) := rfl

variable {rest : List (Step σ ε ι β)}

theorem runSteps_cons_none (h : step.fault = none) (s : σ) :
    runSteps (step :: rest) s = runSteps rest (step.effect s) := by
  rw [runSteps, h]

theorem runSteps_cons_some {e : ε} (h : step.fault = some e) (s : σ) :
    runSteps (step :: rest) s = (some e, s) := by
  rw [runSteps, h]

theorem runSteps_append (xs ys : List (Step σ ε ι β)) (s : σ) : runSteps (xs ++ ys) s =
      match runSteps xs s with
      | (none, s') => runSteps ys s'
      | (some e, s') => (some e, s') := by
  induction xs generalizing s with
  | nil => rfl
  | cons step xs ih =>
    cases hfault : step.fault with
    | some e =>
      rw [List.cons_append, runSteps_cons_some hfault, runSteps_cons_some hfault]
    | none => rw [List.cons_append, runSteps_cons_none hfault, runSteps_cons_none hfault, ih]

theorem runSteps_fst_eq_none_iff (steps : List (Step σ ε ι β)) (s : σ) :
    (runSteps steps s).1 = none ↔ ∀ step ∈ steps, step.fault = none := by
  induction steps generalizing s with
  | nil => simp
  | cons step rest ih =>
    cases hfault : step.fault with
    | some e => simp [runSteps_cons_some hfault, hfault]
    | none => simp [runSteps_cons_none hfault, hfault, ih]

def effects (steps : List (Step σ ε ι β)) (s : σ) : σ := steps.foldl (fun s step => step.effect s) s

@[simp] theorem effects_nil (s : σ) : effects ([] : List (Step σ ε ι β)) s = s := rfl

@[simp] theorem effects_cons (step : Step σ ε ι β) (rest : List (Step σ ε ι β)) (s : σ) :
    effects (step :: rest) s = effects rest (step.effect s) := rfl

@[simp] theorem effects_append (xs ys : List (Step σ ε ι β)) (s : σ) :
    effects (xs ++ ys) s = effects ys (effects xs s) :=
  List.foldl_append

theorem effects_flatMap {α : Type} (l : List α) (f : α → List (Step σ ε ι β)) (s : σ) :
    effects (l.flatMap f) s = l.foldl (fun s a => effects (f a) s) s := by
  induction l generalizing s with
  | nil => rfl
  | cons a rest ih => rw [List.flatMap_cons, effects_append, ih, List.foldl_cons]

variable {steps : List (Step σ ε ι β)}

theorem runSteps_of_no_fault (h : ∀ step ∈ steps, step.fault = none) (s : σ) :
    runSteps steps s = (none, effects steps s) := by
  induction steps generalizing s with
  | nil => rfl
  | cons step rest ih =>
    obtain ⟨hstep, hrest⟩ := List.forall_mem_cons.mp h
    rw [runSteps_cons_none hstep, ih hrest, effects_cons]

theorem runSteps_append_of_fault {xs : List (Step σ ε ι β)} (hmem : step ∈ xs)
    (hfault : step.fault ≠ none) (ys : List (Step σ ε ι β)) (s : σ) :
    (runSteps (xs ++ ys) s).1 ≠ none ∧ (runSteps (xs ++ ys) s).2 = (runSteps xs s).2 := by
  have herr : (runSteps xs s).1 ≠ none := fun h =>
    hfault ((runSteps_fst_eq_none_iff xs s).mp h step hmem)
  rw [runSteps_append]
  rcases hrun : runSteps xs s with ⟨r, s'⟩
  rw [hrun] at herr
  cases r with
  | none => exact absurd rfl herr
  | some e => exact ⟨Option.some_ne_none e, rfl⟩

theorem runSteps_preserves {P : σ → Prop} (hstep : ∀ step ∈ steps, ∀ s, P s → P (step.effect s))
    (hs : P s) : P (runSteps steps s).2 := by
  induction steps generalizing s with
  | nil => exact hs
  | cons step rest ih =>
    cases hfault : step.fault with
    | some e =>
      rw [runSteps_cons_some hfault]
      exact hs
    | none =>
      rw [runSteps_cons_none hfault]
      apply ih
      · intro step' hmem
        exact hstep step' (List.mem_cons_of_mem _ hmem)
      · exact hstep step List.mem_cons_self s hs

theorem runSteps_view_of_notMem [DecidableEq ι] (view : σ → ι → β)
    (hsound : ∀ step ∈ steps, step.Sound view) {i : ι} (hi : i ∉ cells steps) (s : σ) :
    view (runSteps steps s).2 i = view s i := by
  apply runSteps_preserves (P := fun s' => view s' i = view s i) ?_ rfl
  intro step hmem s' hs'
  rw [hsound step hmem s']
  cases hwrite : step.write with
  | none => exact hs'
  | some p =>
    have hne : i ≠ p.1 := by
      rintro rfl
      apply hi
      exact List.mem_filterMap.mpr ⟨step, hmem, by rw [hwrite]; rfl⟩
    simpa [Function.update_of_ne hne] using hs'

/-! ## When an error leaves every cell as it was -/

/-- Either no step is faulty, or the first faulty step comes before every
step that would change the cell it writes. -/
def FaultFirst (m : ι → β) : List (Step σ ε ι β) → Prop
  | [] => True
  | step :: rest =>
    step.fault ≠ none ∨ (∀ x ∈ step :: rest, x.fault = none) ∨ (step.Keeps m ∧ FaultFirst m rest)

theorem faultFirst_of_no_fault (h : ∀ step ∈ steps, step.fault = none) : FaultFirst m steps := by
  cases steps with
  | nil => exact .intro
  | cons step rest => exact .inr (.inl h)

theorem runSteps_last_of_error (steps : List (Step σ ε ι β)) (last : Step σ ε ι β) (s : σ)
    (herr : (runSteps (steps ++ [last]) s).1 ≠ none) :
    (runSteps (steps ++ [last]) s).2 = (runSteps steps s).2 := by
  rw [runSteps_append] at herr ⊢
  cases hrun : runSteps steps s with
  | mk r s' =>
    rw [hrun] at herr
    cases r with
    | some e => rfl
    | none =>
      cases hfault : last.fault with
      | some e => simp [runSteps_cons_some hfault]
      | none => simp [runSteps_cons_none hfault] at herr

theorem faultFirst_cons_of_keeps (hfault : step.fault = none) (hkeeps : step.Keeps m) :
    FaultFirst m (step :: rest) ↔ FaultFirst m rest := by
  constructor
  · rintro (h | h | h)
    · exact absurd hfault h
    · exact faultFirst_of_no_fault fun x hx => h x (List.mem_cons_of_mem _ hx)
    · exact h.2
  · intro h
    exact .inr (.inr ⟨hkeeps, h⟩)

theorem faultFirst_cons_of_changes (hfault : step.fault = none) (hchanges : ¬ step.Keeps m) :
    FaultFirst m (step :: rest) ↔ ∀ x ∈ rest, x.fault = none := by
  constructor
  · rintro (h | h | h)
    · exact absurd hfault h
    · exact fun x hx => h x (List.mem_cons_of_mem _ hx)
    · exact absurd h.1 hchanges
  · intro h
    exact .inr (.inl (List.forall_mem_cons.mpr ⟨hfault, h⟩))

theorem runSteps_view_ne [DecidableEq ι] (view : σ → ι → β)
    (hsound : ∀ x ∈ step :: rest, x.Sound view) (hcells : (cells (step :: rest)).Nodup)
    (hchanges : ¬ step.Keeps (view s)) :
    view (runSteps rest (step.effect s)).2 ≠ view s := by
  obtain ⟨hstep, hrest⟩ := List.forall_mem_cons.mp hsound
  obtain ⟨i, b, hwrite, hne⟩ : ∃ i b, step.write = some (i, b) ∧ view s i ≠ b := by
    simpa [Keeps] using hchanges
  have hi : i ∉ cells rest := by
    have hnodup : (i :: cells rest).Nodup := by simpa [cells, hwrite] using hcells
    exact (List.nodup_cons.mp hnodup).1
  intro heq
  have hcell := runSteps_view_of_notMem view hrest hi (step.effect s)
  rw [heq, hstep s, hwrite] at hcell
  exact hne (by simpa using hcell)

theorem runSteps_keeps_iff [DecidableEq ι] (view : σ → ι → β) (last : Step σ ε ι β)
    (hsound : ∀ step ∈ steps, step.Sound view) (hcells : (cells steps).Nodup) (s : σ) :
    ((runSteps (steps ++ [last]) s).1 ≠ none → view (runSteps (steps ++ [last]) s).2 = view s) ↔
      FaultFirst (view s) (steps ++ [last]) := by
  induction steps generalizing s with
  | nil =>
    rw [List.nil_append]
    constructor
    · intro _
      cases hfault : last.fault with
      | some e => exact .inl (by rw [hfault]; exact Option.some_ne_none e)
      | none => exact .inr (.inl (by simpa using hfault))
    · intro _ herr
      exact congrArg view (runSteps_last_of_error [] last s herr)
  | cons step rest ih =>
    obtain ⟨hstep, hsoundRest⟩ := List.forall_mem_cons.mp hsound
    have hcellsRest : (cells rest).Nodup :=
      hcells.sublist ((List.sublist_cons_self step rest).filterMap _)
    rw [List.cons_append]
    cases hfault : step.fault with
    | some e =>
      rw [runSteps_cons_some hfault]
      refine ⟨fun _ => .inl ?_, fun _ _ => rfl⟩
      rw [hfault]
      exact Option.some_ne_none e
    | none =>
      rw [runSteps_cons_none hfault]
      by_cases hkeeps : step.Keeps (view s)
      · have hview : view (step.effect s) = view s := hstep.keeps hkeeps
        rw [faultFirst_cons_of_keeps hfault hkeeps, ← hview]
        exact ih hsoundRest hcellsRest (step.effect s)
      · rw [faultFirst_cons_of_changes hfault hkeeps, ← runSteps_fst_eq_none_iff _ (step.effect s)]
        constructor
        · intro h
          by_contra herr
          apply runSteps_view_ne view hsound hcells hkeeps
          rw [← runSteps_last_of_error rest last _ herr]
          exact h herr
        · intro hnone herr
          exact absurd hnone herr

end Step

/-! ## Programs as lists of steps -/

namespace Program

open Step

variable {σ ε ι β α γ : Type}

/-- From the state `s` the program takes the given steps, and it returns `a`
unless one of them fails. -/
def Performs (p : Program σ ε α) (a : α) (steps : List (Step σ ε ι β)) (s : σ) : Prop :=
  exec p s =
    match runSteps steps s with
    | (none, s') => (.ok a, s')
    | (some e, s') => (.error e, s')

theorem Performs.pure (a : α) (s : σ) : Performs (Pure.pure a : Program σ ε α) a
      ([] : List (Step σ ε ι β)) s := rfl

theorem Performs.failOn (fault : Option ε) (s : σ) :
    Performs (failOn fault) () [(check fault : Step σ ε ι β)] s := by
  cases fault <;> rfl

theorem Performs.perform (step : Step σ ε ι β) (s : σ) :
    Performs (Program.perform step.fault step.effect) () [step] s := by
  cases hfault : step.fault with
  | none => simp [Performs, runSteps_cons_none hfault]
  | some e => simp [Performs, runSteps_cons_some hfault]

theorem Performs.modify (effect : σ → σ) (s : σ) :
    Performs (MonadState.modifyGet fun s => ((), effect s) : Program σ ε Unit) ()
      [(⟨none, effect, none⟩ : Step σ ε ι β)] s := rfl

variable {p : Program σ ε α} {f : α → Program σ ε γ} {a : α} {c : γ} {s : σ}
  {steps : List (Step σ ε ι β)}

theorem Performs.bind {steps more : List (Step σ ε ι β)} (hp : Performs p a steps s)
    (hf : ∀ s', runSteps steps s = (none, s') → Performs (f a) c more s') :
    Performs (p >>= f) c (steps ++ more) s := by
  rw [Performs] at hp ⊢
  rw [runSteps_append, exec_bind, hp]
  cases hrun : runSteps steps s with
  | mk r s' =>
    cases r with
    | some e => rfl
    | none => exact hf s' hrun

theorem Performs.bind_pure (hp : Performs p a steps s)
    (g : α → γ) : Performs (p >>= fun x => Pure.pure (g x)) (g a) steps s := by
  have hbind := Performs.bind (f := fun x => Pure.pure (g x)) hp fun s' _ => Performs.pure (g a) s'
  rwa [List.append_nil] at hbind

theorem Performs.cons {step : Step σ ε ι β} {more : List (Step σ ε ι β)}
    (hp : Performs p a [step] s) (hf : step.fault = none → Performs (f a) c more (step.effect s)) :
    Performs (p >>= f) c (step :: more) s := by
  refine .bind hp ?_
  intro s' hrun
  cases hfault : step.fault with
  | none =>
    rw [runSteps_cons_none hfault] at hrun
    cases hrun
    exact hf hfault
  | some e =>
    rw [runSteps_cons_some hfault] at hrun
    cases hrun

theorem Performs.get_bind {f : σ → Program σ ε γ} (h : Performs (f s) c steps s) :
    Performs (MonadState.get >>= f) c steps s := h

theorem Performs.throw (e : ε) (a : α) (s : σ) : Performs (MonadExcept.throw e : Program σ ε α) a
      [(check (some e) : Step σ ε ι β)] s := rfl

end Program

end GoWarp.Support
