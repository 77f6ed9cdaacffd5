import Mathlib.Data.List.Basic

/-!
# Tries

A trie over an alphabet `κ` with a value of type `α` at every node.  Nodes are
created on the way to a path and never removed; a node that does not exist
counts as one with the value `zero`.  The trie is then a function from paths
to values, and the lemmas say how changing one path changes this function,
which values lie along a path, and that every value is listed.
-/

namespace GoWarp.Support

mutual

inductive Trie (κ α : Type) : Type where
  | node (value : α) (children : Forest κ α)

/-- The children of a node, by the symbol on the edge. -/
inductive Forest (κ α : Type) : Type where
  | nil
  | cons (edge : κ) (child : Trie κ α) (rest : Forest κ α)

end

namespace Forest

variable {κ α : Type} [DecidableEq κ]

def find (edge : κ) : Forest κ α → Option (Trie κ α)
  | .nil => none
  | .cons edge' child rest => if edge' = edge then some child else find edge rest

/-- Set the child behind an edge. -/
def insert (edge : κ) (child : Trie κ α) : Forest κ α → Forest κ α
  | .nil => .cons edge child .nil
  | .cons edge' child' rest =>
    if edge' = edge then .cons edge child rest
    else .cons edge' child' (insert edge child rest)

theorem find_insert (edge other : κ) (child : Trie κ α) :
    ∀ children : Forest κ α, (children.insert edge child).find other =
      if edge = other then some child else children.find other
  | .nil => rfl
  | .cons edge' child' rest => by
      rw [insert, find]
      split
      next h =>
        rw [find, h]
        split
        · rfl
        · rfl
      next h =>
        rw [find, find_insert edge other child rest]
        split
        next heq => rw [if_neg fun h' => h (heq.trans h'.symm)]
        next => rfl

end Forest

namespace Trie

variable {κ α : Type} [DecidableEq κ]

def value : Trie κ α → α
  | .node value _ => value

def children : Trie κ α → Forest κ α
  | .node _ children => children

/-- A node without children. -/
def leaf (value : α) : Trie κ α := .node value .nil

/-- The value at the end of a path, if the node exists. -/
def find? : List κ → Trie κ α → Option α
  | [], t => some t.value
  | edge :: path, t => (t.children.find edge).bind (find? path)

/-- Change the value at the end of a path and create the nodes that are
missing on the way. -/
def modify (zero : α) (f : α → α) : List κ → Trie κ α → Trie κ α
  | [], t => .node (f t.value) t.children
  | edge :: path, t =>
    .node t.value (t.children.insert edge
      (modify zero f path ((t.children.find edge).getD (leaf zero))))

/-- Change the value at the end of a path, if the node exists. -/
def adjust (f : α → α) : List κ → Trie κ α → Trie κ α
  | [], t => .node (f t.value) t.children
  | edge :: path, t =>
    match t.children.find edge with
    | none => t
    | some child => .node t.value (t.children.insert edge (adjust f path child))

/-- Change the values below the root along a path and create the nodes that are
missing. -/
def modifyAlong (zero : α) (f : α → α) : List κ → Trie κ α → Trie κ α
  | [], t => t
  | edge :: path, t =>
    let child := (t.children.find edge).getD (leaf zero)
    .node t.value (t.children.insert edge
      (modifyAlong zero f path (.node (f child.value) child.children)))

/-- Change the values below the root along a path, as far as the nodes
exist. -/
def adjustAlong (f : α → α) : List κ → Trie κ α → Trie κ α
  | [], t => t
  | edge :: path, t =>
    match t.children.find edge with
    | none => t
    | some child =>
      .node t.value (t.children.insert edge
        (adjustAlong f path (.node (f child.value) child.children)))

/-- The values below the root along a path, as far as the nodes exist. -/
def along : List κ → Trie κ α → List α
  | [], _ => []
  | edge :: path, t =>
    match t.children.find edge with
    | none => []
    | some child => child.value :: along path child

/-- The value at the end of a path, `zero` where there is no node. -/
def get (zero : α) (path : List κ) (t : Trie κ α) : α := (t.find? path).getD zero

end Trie

mutual

def Trie.values {κ α : Type} : Trie κ α → List α
  | .node value children => value :: children.values

def Forest.values {κ α : Type} : Forest κ α → List α
  | .nil => []
  | .cons _ child rest => child.values ++ rest.values

end

namespace Trie

variable {κ α : Type} [DecidableEq κ] {zero : α} {f : α → α}

theorem get_leaf (path : List κ) : (leaf zero : Trie κ α).get zero path = zero := by
  rcases path with _ | ⟨edge, path⟩ <;> rfl

theorem get_cons (edge : κ) (path : List κ) (t : Trie κ α) : t.get zero (edge :: path) =
      ((t.children.find edge).getD (leaf zero)).get zero path := by
  rw [get, find?]
  rcases t.children.find edge with _ | child
  · rw [Option.getD_none, get_leaf]
    rfl
  · rfl

theorem get_insert (value : α) (edge edge' : κ) (child t : Trie κ α) (path : List κ) :
    (node value (t.children.insert edge child)).get zero (edge' :: path) =
      if edge = edge' then child.get zero path
      else t.get zero (edge' :: path) := by
  rw [get_cons, get_cons, children, Forest.find_insert]
  split
  · rfl
  · rfl

/-! ## Changing one path -/

theorem get_modify (path other : List κ) (t : Trie κ α) : (t.modify zero f path).get zero other =
      if other = path then f (t.get zero other) else t.get zero other := by
  induction path generalizing t other with
  | nil =>
    rcases other with _ | ⟨edge', other⟩
    · rfl
    · rfl
  | cons edge path ih =>
    rcases other with _ | ⟨edge', other⟩
    · rfl
    · rw [modify, get_insert, ih, get_cons]
      split
      next hedge =>
        rw [hedge]
        simp only [List.cons.injEq, true_and]
      next hedge => rw [if_neg fun h => hedge (List.cons.inj h).1.symm]

theorem get_adjust (hzero : f zero = zero) (path other : List κ) (t : Trie κ α) :
    (t.adjust f path).get zero other = (t.modify zero f path).get zero other := by
  induction path generalizing t other with
  | nil => rfl
  | cons edge path ih =>
    rw [adjust, modify]
    rcases hfind : t.children.find edge with _ | child
    · rcases other with _ | ⟨edge', other⟩
      · rfl
      · dsimp only
        rw [get_insert, Option.getD_none, get_modify, get_leaf, hzero, ite_self]
        split
        next hedge => rw [get_cons, ← hedge, hfind, Option.getD_none, get_leaf]
        next => rfl
    · rcases other with _ | ⟨edge', other⟩
      · rfl
      · rw [get_insert, get_insert, ih, Option.getD_some]

/-! ## Changing the nodes along a path -/

theorem get_modifyAlong (path other : List κ) (t : Trie κ α) :
    (t.modifyAlong zero f path).get zero other =
      if other ≠ [] ∧ other <+: path then f (t.get zero other)
      else t.get zero other := by
  induction path generalizing t other with
  | nil =>
    rw [modifyAlong, if_neg]
    rintro ⟨hne, hpre⟩
    exact hne (List.prefix_nil.mp hpre)
  | cons edge path ih =>
    rcases other with _ | ⟨edge', other⟩
    · rw [if_neg fun h => h.1 rfl]
      rfl
    · rw [modifyAlong, get_insert, ih, get_cons edge']
      split
      next hedge =>
        rw [hedge]
        rcases other with _ | ⟨edge', other⟩
        · rw [if_neg fun h => h.1 rfl, if_pos]
          · rfl
          · exact ⟨List.cons_ne_nil _ _, (List.prefix_cons_inj _).mpr List.nil_prefix⟩
        · simp only [ne_eq, reduceCtorEq, not_false_eq_true, true_and, List.prefix_cons_inj]
          rw [get_cons, get_cons]
          rfl
      next hedge => rw [if_neg fun h => hedge (List.cons_prefix_cons.mp h.2).1.symm]

theorem get_adjustAlong (hzero : f zero = zero) (path other : List κ) (t : Trie κ α) :
    (t.adjustAlong f path).get zero other = (t.modifyAlong zero f path).get zero other := by
  induction path generalizing t other with
  | nil => rfl
  | cons edge path ih =>
    rw [adjustAlong, modifyAlong]
    rcases hfind : t.children.find edge with _ | child
    · rcases other with _ | ⟨edge', other⟩
      · rfl
      · have hleaf : node (f zero) (leaf zero : Trie κ α).children =
            leaf zero := by rw [hzero]; rfl
        dsimp only
        rw [get_insert, Option.getD_none, leaf, value, ← leaf, hleaf,
          get_modifyAlong, get_leaf, hzero, ite_self]
        split
        next hedge => rw [get_cons, ← hedge, hfind, Option.getD_none, get_leaf]
        next => rfl
    · rcases other with _ | ⟨edge', other⟩
      · rfl
      · rw [get_insert, get_insert, ih, Option.getD_some]

/-! ## Values along a path, and all values -/

theorem mem_along_iff {path : List κ} {t : Trie κ α} {a : α} :
    a ∈ t.along path ↔ ∃ p, p ≠ [] ∧ p <+: path ∧ t.find? p = some a := by
  induction path generalizing t with
  | nil =>
    constructor
    · intro h
      cases h
    · rintro ⟨p, hne, hpre, _⟩
      exact absurd (List.prefix_nil.mp hpre) hne
  | cons edge path ih =>
    rw [along]
    constructor
    · intro h
      split at h
      · cases h
      next child hfind =>
        rcases List.mem_cons.mp h with rfl | h
        · refine ⟨[edge], List.cons_ne_nil _ _, ?_, ?_⟩
          · exact List.prefix_cons_inj edge |>.mpr List.nil_prefix
          · rw [find?, hfind]
            rfl
        · obtain ⟨p, _, hpre, hp⟩ := ih.mp h
          refine ⟨edge :: p, List.cons_ne_nil _ _, ?_, ?_⟩
          · exact (List.prefix_cons_inj edge).mpr hpre
          · rw [find?, hfind]
            exact hp
    · rintro ⟨p, hne, hpre, hp⟩
      obtain ⟨edge', p, rfl⟩ := List.exists_cons_of_ne_nil hne
      obtain ⟨rfl, hrest⟩ := List.cons_prefix_cons.mp hpre
      rw [find?, Option.bind_eq_some_iff] at hp
      obtain ⟨child, hfind, hp⟩ := hp
      rw [hfind]
      rcases p with _ | ⟨edge, p⟩
      · rw [find?, Option.some.injEq] at hp
        rw [← hp]
        exact List.mem_cons_self
      · apply List.mem_cons_of_mem
        exact ih.mpr ⟨edge :: p, List.cons_ne_nil _ _, hrest, hp⟩

theorem values_of_find {edge : κ} {child : Trie κ α} {a : α} (ha : a ∈ child.values) :
    ∀ {children : Forest κ α}, children.find edge = some child → a ∈ children.values
  | .nil, h => by cases h
  | .cons edge' child' rest, h => by
      rw [Forest.find] at h
      rw [Forest.values, List.mem_append]
      split at h
      · rw [Option.some.injEq] at h
        exact Or.inl (h ▸ ha)
      · exact Or.inr (values_of_find ha h)

theorem mem_values_of_find? {path : List κ} {t : Trie κ α} {a : α}
    (h : t.find? path = some a) : a ∈ t.values := by
  induction path generalizing t with
  | nil =>
    obtain ⟨value, children⟩ := t
    rw [values, ← Option.some.inj h]
    exact List.mem_cons_self
  | cons edge path ih =>
    obtain ⟨value, children⟩ := t
    rw [find?, Option.bind_eq_some_iff] at h
    obtain ⟨child, hfind, hchild⟩ := h
    rw [values]
    exact List.mem_cons_of_mem _ (values_of_find (ih hchild) hfind)

end Trie

end GoWarp.Support
