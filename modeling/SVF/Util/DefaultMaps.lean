import Mathlib.Data.List.Nodup

namespace SVF.Util.DefaultMaps

/-- A finite map read with a default value, as `operator[]` of the standard
maps reads it: `keys` are the keys present, in some iteration order. -/
structure DefaultMap (K V : Type*) [Inhabited V] where
  keys : List K
  get : K → V
  nodup : keys.Nodup
  get_absent : ∀ k, k ∉ keys → get k = default

variable {K V : Type*} [Inhabited V]

def DefaultMap.empty : DefaultMap K V := ⟨[], fun _ => default, List.nodup_nil, fun _ _ => rfl⟩

instance : Inhabited (DefaultMap K V) := ⟨.empty⟩

@[simp] theorem get_default (k : K) : (default : DefaultMap K V).get k = default := rfl

@[simp] theorem keys_default : (default : DefaultMap K V).keys = [] := rfl

variable [DecidableEq K]

def DefaultMap.touch (m : DefaultMap K V) (k : K) : DefaultMap K V :=
  if h : k ∈ m.keys then m else
    ⟨k :: m.keys, m.get, List.nodup_cons.mpr ⟨h, m.nodup⟩,
      fun j hj => m.get_absent j (fun hm => hj (List.mem_cons_of_mem _ hm))⟩

@[simp] theorem mem_keys_touch (m : DefaultMap K V) (k j : K) :
    j ∈ (m.touch k).keys ↔ j ∈ m.keys ∨ j = k := by
  unfold DefaultMap.touch
  split
  · rename_i h
    exact ⟨.inl, fun hj => hj.elim id (fun he => he ▸ h)⟩
  · simp [or_comm]

@[simp] theorem get_touch (m : DefaultMap K V) (k : K) : (m.touch k).get = m.get := by
  unfold DefaultMap.touch
  split <;> rfl

def DefaultMap.set (m : DefaultMap K V) (k : K) (v : V) : DefaultMap K V :=
  ⟨(m.touch k).keys, fun j => if j = k then v else m.get j, (m.touch k).nodup, by
    intro j hj
    rw [mem_keys_touch, not_or] at hj
    simp [hj.2, m.get_absent j hj.1]⟩

theorem get_set (m : DefaultMap K V) (k : K) (v : V) (j : K) :
    (m.set k v).get j = if j = k then v else m.get j := rfl

@[simp] theorem get_set_self (m : DefaultMap K V) (k : K) (v : V) : (m.set k v).get k = v := by
  simp [get_set]

theorem get_set_of_ne (m : DefaultMap K V) {k j : K} (v : V) (h : j ≠ k) :
    (m.set k v).get j = m.get j := by
  simp [get_set, h]

@[simp] theorem mem_keys_set (m : DefaultMap K V) (k : K) (v : V) (j : K) :
    j ∈ (m.set k v).keys ↔ j ∈ m.keys ∨ j = k := mem_keys_touch m k j

def DefaultMap.modify (m : DefaultMap K V) (k : K) (f : V → V) : DefaultMap K V :=
  m.set k (f (m.get k))

theorem get_modify (m : DefaultMap K V) (k : K) (f : V → V) (j : K) :
    (m.modify k f).get j = if j = k then f (m.get k) else m.get j := rfl

@[simp] theorem mem_keys_modify (m : DefaultMap K V) (k : K) (f : V → V) (j : K) :
    j ∈ (m.modify k f).keys ↔ j ∈ m.keys ∨ j = k := mem_keys_touch m k j

def DefaultMap.mapWithKey (m : DefaultMap K V) (f : K → V → V) : DefaultMap K V :=
  ⟨m.keys, fun k => if k ∈ m.keys then f k (m.get k) else default, m.nodup,
    fun _ h => if_neg h⟩

@[simp] theorem keys_mapWithKey (m : DefaultMap K V) (f : K → V → V) :
    (m.mapWithKey f).keys = m.keys := rfl

theorem get_mapWithKey (m : DefaultMap K V) (f : K → V → V) (k : K) :
    (m.mapWithKey f).get k = if k ∈ m.keys then f k (m.get k) else default := rfl

/-- A loop over different keys, of which each round changes its own key by the entry of that key. -/
theorem get_foldl_local {step : DefaultMap K V → K → DefaultMap K V}
    (hother : ∀ m k j, j ≠ k → (step m k).get j = m.get j ∧ (j ∈ (step m k).keys ↔ j ∈ m.keys))
    (hlocal : ∀ m m' k, m.get k = m'.get k → (k ∈ m.keys ↔ k ∈ m'.keys) → (step m k).get k = (step m' k).get k)
    {l : List K} (hl : l.Nodup) (m : DefaultMap K V) (j : K) :
    (l.foldl step m).get j = if j ∈ l then (step m j).get j else m.get j := by
  induction l generalizing m with
  | nil => simp
  | cons k l ih =>
      obtain ⟨hk, hl⟩ := List.nodup_cons.mp hl
      rw [List.foldl_cons, ih hl]
      by_cases hj : j = k
      · subst hj
        rw [if_neg hk, if_pos List.mem_cons_self]
      · obtain ⟨hget, hkeys⟩ := hother m k j hj
        simp only [List.mem_cons, hj, false_or, hget, hlocal _ m j hget hkeys]

end SVF.Util.DefaultMaps
