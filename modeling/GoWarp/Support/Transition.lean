import Mathlib.Logic.Basic

/-!
# Machines and their runs

A machine takes a labelled step from a state, or cannot take it.  A run is a
list of labels.  What holds in every state of a run is proved from what one
step preserves, possibly under a condition on each step.
-/

namespace GoWarp.Support

variable {σ α β : Type}

/-- The state after a step, `none` when the step cannot be taken. -/
abbrev Machine (σ α : Type) := σ → α → Option σ

namespace Machine

variable (m : Machine σ α)

/-- The state after a list of steps. -/
def run : σ → List α → Option σ
  | s, [] => some s
  | s, a :: rest => (m s a).bind fun s' => run s' rest

/-- Every step of a run meets the condition in the state it is taken from. -/
def AllSteps (P : σ → α → Prop) : σ → List α → Prop
  | _, [] => True
  | s, a :: rest => P s a ∧ ∀ s', m s a = some s' → AllSteps P s' rest

/-- What is asked of the value of an `Option` can be decided if it can be
decided for each value. -/
def decidableForallEqSome {P : σ → Prop} [∀ s, Decidable (P s)] :
    ∀ o : Option σ, Decidable (∀ s, o = some s → P s)
  | none => isTrue fun _ h => absurd h.symm (Option.some_ne_none _)
  | some s => decidable_of_iff (P s)
      ⟨fun h _ hs => Option.some.inj hs ▸ h, fun h => h s rfl⟩

instance decidableAllSteps (P : σ → α → Prop) [∀ s a, Decidable (P s a)] :
    ∀ s as, Decidable (m.AllSteps P s as)
  | _, [] => isTrue trivial
  | s, a :: rest =>
    haveI := decidableAllSteps P
    haveI := decidableForallEqSome (P := fun s' => m.AllSteps P s' rest) (m s a)
    inferInstanceAs (Decidable (_ ∧ _))

/-- What the steps of a run put out, in order. -/
def emitted (out : σ → α → Option β) : σ → List α → List β
  | _, [] => []
  | s, a :: rest => (out s a).toList ++ ((m s a).map fun s' => emitted out s' rest).getD []

@[simp] theorem run_nil (s : σ) : m.run s [] = some s := rfl

variable {s s' : σ}

variable {a : α} {rest : List α} {t : σ} {Q : σ → α → Prop} {I : σ → Prop} {τ : Type}
  {R : σ → τ → Prop}

theorem run_cons : m.run s (a :: rest) = some s' ↔
      ∃ t, m s a = some t ∧ m.run t rest = some s' := by
  rw [run, Option.bind_eq_some_iff]

theorem run_cons_of_step (ht : m s a = some t)
    (rest : List α) : m.run s (a :: rest) = m.run t rest := by
  rw [run, ht, Option.bind_some]

theorem run_append (s : σ) (before rest : List α) : m.run s (before ++ rest) =
      (m.run s before).bind fun t => m.run t rest := by
  induction before generalizing s with
  | nil => rfl
  | cons a before ih =>
    rw [List.cons_append, run, run, Option.bind_assoc]
    exact congrArg _ (funext ih)

variable {P : σ → α → Prop}

theorem allSteps_cons (ht : m s a = some t) :
    m.AllSteps P s (a :: rest) ↔ P s a ∧ m.AllSteps P t rest := by
  rw [AllSteps]
  refine and_congr_right fun _ => ⟨fun h => h t ht, fun h s' hs' => ?_⟩
  obtain rfl : t = s' := Option.mem_unique ht hs'
  exact h

theorem AllSteps.cons {m : Machine σ α} (ha : P s a) (ht : m s a = some t)
    (h : m.AllSteps P t rest) :
    m.AllSteps P s (a :: rest) :=
  (m.allSteps_cons ht).mpr ⟨ha, h⟩

variable {as : List α}

theorem allSteps_of_states (h : ∀ a ∈ as, ∀ s, P s a) (s : σ) : m.AllSteps P s as := by
  induction as generalizing s with
  | nil => trivial
  | cons a rest ih =>
    obtain ⟨ha, hrest⟩ := List.forall_mem_cons.mp h
    exact ⟨ha s, fun s' _ => ih hrest s'⟩

theorem allSteps_of_forall {P : α → Prop} (h : ∀ a ∈ as, P a)
    (s : σ) : m.AllSteps (fun _ a => P a) s as :=
  m.allSteps_of_states (fun a ha _ => h a ha) s

theorem AllSteps.and {m : Machine σ α} (hP : m.AllSteps P s as) (hQ : m.AllSteps Q s as) :
    m.AllSteps (fun s a => P s a ∧ Q s a) s as := by
  induction as generalizing s with
  | nil => trivial
  | cons a rest ih => exact ⟨⟨hP.1, hQ.1⟩, fun s' hs' => ih (hP.2 s' hs') (hQ.2 s' hs')⟩

theorem allSteps_true (s : σ) (as : List α) : m.AllSteps (fun _ _ => True) s as :=
  m.allSteps_of_forall (fun _ _ => trivial) s

theorem run_invariant_of_allSteps
    (hstep : ∀ s a s', I s → P s a → m s a = some s' → I s') (hrun : m.run s as = some s')
    (hsteps : m.AllSteps P s as) (hs : I s) : I s' := by
  induction as generalizing s with
  | nil =>
    cases hrun
    exact hs
  | cons a rest ih =>
    obtain ⟨t, ht, hrest⟩ := m.run_cons.mp hrun
    exact ih hrest (hsteps.2 t ht) (hstep s a t hs hsteps.1 ht)

theorem run_invariant
    (hstep : ∀ s a s', I s → m s a = some s' → I s') (hrun : m.run s as = some s') (hs : I s) :
    I s' :=
  m.run_invariant_of_allSteps (fun s a s' hI _ => hstep s a s' hI) hrun (m.allSteps_true s as) hs

theorem AllSteps.of_invariant {m : Machine σ α}
    (hstep : ∀ s a s', I s → P s a → m s a = some s' → I s') (hgood : ∀ s a, I s → P s a → Q s a)
    (hsteps : m.AllSteps P s as) (hs : I s) : m.AllSteps Q s as := by
  induction as generalizing s with
  | nil => trivial
  | cons a rest ih =>
    refine ⟨hgood s a hs hsteps.1, fun t ht => ?_⟩
    exact ih (hsteps.2 t ht) (hstep s a t hs hsteps.1 ht)

theorem allSteps_of_run (hstep : ∀ s a s', I s → m s a = some s' → I s')
    (hgood : ∀ s a s', I s → m s a = some s' → P s a)
    (hrun : m.run s as = some s') (hs : I s) : m.AllSteps P s as := by
  induction as generalizing s with
  | nil => trivial
  | cons a rest ih =>
    obtain ⟨t, ht, hrest⟩ := m.run_cons.mp hrun
    rw [m.allSteps_cons ht]
    exact ⟨hgood s a t hs ht, ih hrest (hstep s a t hs ht)⟩

theorem run_foldl (f : τ → α → τ)
    (hstep : ∀ s t a s', R s t → m s a = some s' → R s' (f t a)) {t : τ}
    (hrun : m.run s as = some s') (hs : R s t) : R s' (as.foldl f t) := by
  induction as generalizing s t with
  | nil =>
    cases hrun
    exact hs
  | cons a rest ih =>
    obtain ⟨u, hu, hrest⟩ := m.run_cons.mp hrun
    exact ih hrest (hstep s t a u hs hu)

theorem run_filter (m' : Machine τ α) (keep : α → Bool) {R : List α → σ → τ → Prop}
    (hkeep : ∀ a rest s t s', R (a :: rest) s t → P s a → m s a = some s' →
      keep a = true → ∃ t', m' t a = some t' ∧ R rest s' t')
    (hskip : ∀ a rest s t s', R (a :: rest) s t → P s a → m s a = some s' →
      keep a = false → R rest s' t) {t : τ} (hrun : m.run s as = some s')
    (hsteps : m.AllSteps P s as) (hs : R as s t) :
    ∃ t', m'.run t (as.filter keep) = some t' ∧ R [] s' t' := by
  induction as generalizing s t with
  | nil =>
    cases hrun
    exact ⟨t, rfl, hs⟩
  | cons a rest ih =>
    obtain ⟨u, hu, hrest⟩ := m.run_cons.mp hrun
    cases hk : keep a with
    | true =>
      obtain ⟨v, hv, hR⟩ := hkeep a rest s t u hs hsteps.1 hu hk
      rw [List.filter_cons_of_pos hk, m'.run_cons_of_step hv]
      exact ih hrest (hsteps.2 u hu) hR
    | false =>
      have hR := hskip a rest s t u hs hsteps.1 hu hk
      rw [List.filter_cons_of_neg (Bool.eq_false_iff.mp hk)]
      exact ih hrest (hsteps.2 u hu) hR

theorem forall_states_iff_allSteps {I Q : σ → Prop}
    (hstep : ∀ s a s', I s → P s a → m s a = some s' → I s') (hgood : ∀ s, I s → Q s)
    (hbad : ∀ s a s', I s → m s a = some s' → Q s' → P s a) (hrun : m.run s as = some s')
    (hs : I s) :
    (∀ before t, before <+: as → m.run s before = some t → Q t) ↔
      m.AllSteps P s as := by
  induction as generalizing s with
  | nil =>
    refine ⟨fun _ => trivial, fun _ before t hbefore ht => ?_⟩
    obtain rfl := List.prefix_nil.mp hbefore
    cases ht
    exact hgood s hs
  | cons a rest ih =>
    obtain ⟨u, hu, hrest⟩ := m.run_cons.mp hrun
    constructor
    · intro h
      have hnext : Q u := by
        refine h [a] u (List.prefix_append [a] rest) ?_
        exact m.run_cons.mpr ⟨u, hu, rfl⟩
      have ha := hbad s a u hs hu hnext
      refine .cons ha hu ?_
      refine (ih hrest (hstep s a u hs ha hu)).mp ?_
      intro before t hbefore ht
      exact h (a :: before) t ((List.prefix_cons_inj a).mpr hbefore) (m.run_cons.mpr ⟨u, hu, ht⟩)
    · intro h before t hbefore ht
      obtain ⟨ha, htail⟩ := (m.allSteps_cons hu).mp h
      rcases before with _ | ⟨c, before⟩
      · cases ht
        exact hgood s hs
      · obtain ⟨rfl, htake⟩ := List.cons_prefix_cons.mp hbefore
        obtain ⟨u', hu', ht⟩ := m.run_cons.mp ht
        obtain rfl := Option.mem_unique hu hu'
        exact (ih hrest (hstep s c u hs ha hu)).mpr htail before t htake ht

/-! ## What a run puts out -/

variable (out : σ → α → Option β)

theorem emitted_cons (ht : m s a = some t) :
    m.emitted out s (a :: rest) = (out s a).toList ++ m.emitted out t rest := by
  rw [emitted, ht, Option.map_some, Option.getD_some]

theorem emitted_eq_filterMap (f : α → Option β) (hrun : m.run s as = some s') :
    m.emitted (fun _ a => f a) s as = as.filterMap f := by
  induction as generalizing s with
  | nil => rfl
  | cons a rest ih =>
    obtain ⟨t, ht, hrest⟩ := m.run_cons.mp hrun
    rw [m.emitted_cons _ ht, ih hrest]
    cases hf : f a with
    | none => exact (List.filterMap_cons_none hf).symm
    | some b => exact (List.filterMap_cons_some hf).symm

theorem run_history_of_allSteps {I : σ → List β → Prop}
    (hstep : ∀ s h a s', I s h → P s a → m s a = some s' →
      I s' (h ++ (out s a).toList)) {h : List β} (hrun : m.run s as = some s')
    (hsteps : m.AllSteps P s as) (hs : I s h) :
    I s' (h ++ m.emitted out s as) := by
  induction as generalizing s h with
  | nil =>
    cases hrun
    rw [emitted, List.append_nil]
    exact hs
  | cons a rest ih =>
    obtain ⟨t, ht, hrest⟩ := m.run_cons.mp hrun
    rw [m.emitted_cons out ht, ← List.append_assoc]
    exact ih hrest (hsteps.2 t ht) (hstep s h a t hs hsteps.1 ht)

theorem run_history {I : σ → List β → Prop} (hstep : ∀ s h a s', I s h → m s a = some s' →
      I s' (h ++ (out s a).toList)) {h : List β} (hrun : m.run s as = some s')
    (hs : I s h) : I s' (h ++ m.emitted out s as) := by
  refine m.run_history_of_allSteps out (P := fun _ _ => True)
    (fun s h a s' hI _ => hstep s h a s' hI) hrun ?_ hs
  exact m.allSteps_true s as

theorem run_congr (m' : Machine σ α) (out' : σ → α → Option β)
    (hstep : ∀ s a, P s a → m' s a = m s a ∧ out' s a = out s a) (hsteps : m.AllSteps P s as) :
    m'.run s as = m.run s as ∧ m'.emitted out' s as = m.emitted out s as := by
  induction as generalizing s with
  | nil => exact ⟨rfl, rfl⟩
  | cons a rest ih =>
    obtain ⟨hmove, hout⟩ := hstep s a hsteps.1
    rw [run, run, emitted, emitted, hmove, hout]
    cases hm : m s a with
    | none => exact ⟨rfl, rfl⟩
    | some t =>
      obtain ⟨hrun, hemitted⟩ := ih (hsteps.2 t hm)
      exact ⟨hrun, congrArg ((out s a).toList ++ ·) hemitted⟩

theorem run_simulation (m' : Machine τ α) (out' : τ → α → Option β) {P : τ → α → Prop}
    (hstep : ∀ s t a s', R s t → P t a → m s a = some s' →
      out s a = out' t a ∧ ∃ t', m' t a = some t' ∧ R s' t') {t : τ} (hrun : m.run s as = some s')
    (hsteps : m'.AllSteps P t as) (hs : R s t) :
    m.emitted out s as = m'.emitted out' t as ∧ ∃ t', m'.run t as = some t' ∧ R s' t' := by
  induction as generalizing s t with
  | nil =>
    cases hrun
    exact ⟨rfl, t, rfl, hs⟩
  | cons a rest ih =>
    obtain ⟨u, hu, hrest⟩ := m.run_cons.mp hrun
    obtain ⟨hout, v, hv, huv⟩ := hstep s t a u hs hsteps.1 hu
    obtain ⟨hemitted, t', ht', hs'⟩ := ih hrest (hsteps.2 v hv) huv
    refine ⟨?_, t', m'.run_cons.mpr ⟨v, hv, ht'⟩, hs'⟩
    rw [m.emitted_cons out hu, m'.emitted_cons out' hv, hout, hemitted]

end Machine

end GoWarp.Support
