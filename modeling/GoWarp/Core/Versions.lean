import GoWarp.Core.Versioned

/-!
# Two histories of one key

Two lists of versions give the same answers if their latest versions are the
same and if `At` finds the same version in both for every time.  As long as
nothing is cut off, a version added to both keeps this, and so does adding the
latest version to one of them again.
-/

namespace GoWarp.Core

variable {T : Type}

namespace VersionedValue

variable {limit : ℤ} {vv : VersionedValue T} {v : Value T} {h h₁ h₂ : Option (VersionedValue T)}

def size (h : Option (VersionedValue T)) : ℕ :=
  match h with
  | none => 0
  | some vv => vv.versions.length

/-! ## The shape of a history -/

/-- There is a version, and not more of them than the limit. -/
structure Shaped (limit : ℤ) (vv : VersionedValue T) : Prop where
  limit_eq : vv.limit = limit
  nonempty : vv.versions ≠ []
  length_le : (vv.versions.length : ℤ) ≤ limit

theorem add_of_room (hlimit : vv.limit = limit)
    (hroom : (vv.versions.length : ℤ) + 1 ≤ limit) (v : Value T) :
    vv.add v = { vv with versions := vv.versions ++ [v] } := by
  apply if_neg
  rintro ⟨_, hlt⟩
  rw [List.length_append, List.length_singleton, hlimit] at hlt
  push_cast at hlt
  omega

theorem Shaped.add (h : vv.Shaped limit) (v : Value T) : (vv.add v).Shaped limit := by
  by_cases hroom : (vv.versions.length : ℤ) + 1 ≤ limit
  · rw [add_of_room h.limit_eq hroom]
    refine ⟨h.limit_eq, List.append_ne_nil_of_right_ne_nil _ nofun, ?_⟩
    rw [List.length_append, List.length_singleton]
    exact_mod_cast hroom
  · have hpos := List.length_pos_iff.mpr h.nonempty
    have hle := h.length_le
    have heq := h.limit_eq
    have hcut : vv.add v = { vv with
        versions := (vv.versions ++ [v]).drop ((vv.versions ++ [v]).length - vv.limit.toNat) } := by
      apply if_pos
      rw [List.length_append, List.length_singleton]
      push_cast
      omega
    have hlength : ((vv.versions ++ [v]).drop ((vv.versions ++ [v]).length -
        vv.limit.toNat)).length = limit.toNat := by
      rw [List.length_drop, List.length_append, List.length_singleton, heq]
      omega
    rw [hcut]
    refine ⟨heq, ?_, ?_⟩
    · apply List.ne_nil_of_length_pos
      rw [hlength]
      omega
    · dsimp only
      rw [hlength]
      omega

theorem shaped_extend (hlimit : 1 ≤ limit)
    (h : ∀ vv, h₁ = some vv → vv.Shaped limit) (v : Value T) :
    (extend limit h₁ v).Shaped limit := by
  cases h₁ with
  | none => exact ⟨rfl, nofun, by exact_mod_cast hlimit⟩
  | some vv => exact (h vv rfl).add v

theorem add_latest_of_single (h : vv.Shaped 1) (hlatest : vv.latest = some v) : vv.add v = vv := by
  have hlength : vv.versions.length = 1 := by
    have := List.length_pos_iff.mpr h.nonempty
    have := h.length_le
    omega
  obtain ⟨u, hu⟩ := List.length_eq_one_iff.mp hlength
  obtain rfl : u = v := by
    rw [latest, hu] at hlatest
    exact Option.some.inj hlatest
  obtain ⟨versions, limit⟩ := vv
  obtain rfl : limit = 1 := h.limit_eq
  obtain rfl : versions = [u] := hu
  rfl

theorem size_extend (h : ∀ vv, h₁ = some vv → vv.Shaped limit)
    (hroom : (size h₁ : ℤ) + 1 ≤ limit) (v : Value T) :
    size (some (extend limit h₁ v)) = size h₁ + 1 := by
  cases h₁ with
  | none => rfl
  | some vv =>
    rw [extend, add_of_room (h vv rfl).limit_eq hroom]
    exact List.length_append

/-! ## What can be asked of a history -/

theorem latest_extend (hshaped : ∀ vv, h = some vv → vv.Shaped limit)
    (hroom : (size h : ℤ) + 1 ≤ limit) (v : Value T) :
    (extend limit h v).latest = some v := by
  cases h with
  | none => rfl
  | some vv =>
    rw [extend, add_of_room (hshaped vv rfl).limit_eq hroom]
    exact List.getLast?_concat

theorem versionAt_extend (hshaped : ∀ vv, h = some vv → vv.Shaped limit)
    (hroom : (size h : ℤ) + 1 ≤ limit) (v : Value T) (t : Instant) :
    (extend limit h v).versionAt t =
      if v.timestamp ≤ t then some v
      else h.bind fun vv => vv.versionAt t := by
  cases h with
  | none =>
    rw [extend, versionAt, new, List.reverse_singleton, List.find?_singleton]
    simp
  | some vv =>
    rw [extend, add_of_room (hshaped vv rfl).limit_eq hroom, versionAt,
      List.reverse_append, List.reverse_singleton, List.singleton_append,
      List.find?_cons]
    by_cases hle : v.timestamp ≤ t
    · simp [hle]
    · simp [hle, versionAt]

theorem versionAt_of_latest (hlatest : vv.latest = some v) {t : Instant}
    (hle : v.timestamp ≤ t) : vv.versionAt t = some v := by
  obtain ⟨before, hversions⟩ := List.getLast?_eq_some_iff.mp hlatest
  rw [versionAt, hversions, List.reverse_append, List.reverse_singleton,
    List.singleton_append, List.find?_cons]
  simp [hle]

/-- The histories give the same answers. -/
structure SameView (h₁ h₂ : Option (VersionedValue T)) : Prop where
  latest : h₁.bind latest = h₂.bind latest
  versionAt : ∀ t, (h₁.bind fun vv => vv.versionAt t) = h₂.bind fun vv => vv.versionAt t

theorem SameView.refl (h : Option (VersionedValue T)) : SameView h h := ⟨rfl, fun _ => rfl⟩

theorem SameView.extend (h : SameView h₁ h₂) (hshaped₁ : ∀ vv, h₁ = some vv → vv.Shaped limit)
    (hshaped₂ : ∀ vv, h₂ = some vv → vv.Shaped limit)
    (hroom₁ : (size h₁ : ℤ) + 1 ≤ limit) (hroom₂ : (size h₂ : ℤ) + 1 ≤ limit) (v : Value T) :
    SameView (some (VersionedValue.extend limit h₁ v))
      (some (VersionedValue.extend limit h₂ v)) where
  latest := by
    rw [Option.bind_some, Option.bind_some, latest_extend hshaped₁ hroom₁,
      latest_extend hshaped₂ hroom₂]
  versionAt t := by
    rw [Option.bind_some, Option.bind_some, versionAt_extend hshaped₁ hroom₁,
      versionAt_extend hshaped₂ hroom₂, h.versionAt t]

theorem SameView.again (h : SameView (some vv) h₂)
    (hshaped : vv.Shaped limit) (hlatest : vv.latest = some v)
    (hroom : (vv.versions.length : ℤ) + 1 ≤ limit) :
    SameView (some (vv.add v)) h₂ := by
  have hshaped' : ∀ vv', some vv = some vv' → vv'.Shaped limit := by
    intro vv' heq
    exact Option.some.inj heq ▸ hshaped
  constructor
  · rw [← h.latest]
    exact (latest_extend hshaped' hroom v).trans hlatest.symm
  · intro t
    rw [← h.versionAt t]
    refine (versionAt_extend hshaped' hroom v t).trans ?_
    split
    next hle => exact (versionAt_of_latest hlatest hle).symm
    · rfl

end VersionedValue

end GoWarp.Core
