import Mathlib.Data.Finset.Card

namespace SVF.Util.Traversals

open Relation

variable {α κ : Type} [DecidableEq κ]

/-- The items that are still to be processed, and the keys that have been visited. -/
structure Traversal (α κ : Type) where
  worklist : List α
  visited : List κ

/-- A worklist in the order of insertion, where an item is found by `same`. -/
def push (same : α → α → Bool) (worklist : List α) (a : α) : List α :=
  if worklist.any (same a) then worklist else worklist ++ [a]

namespace Traversal

variable (same : α → α → Bool) (key : α → κ)

def visit (t : Traversal α κ) (a : α) : Traversal α κ :=
  if key a ∈ t.visited then t else ⟨push same t.worklist a, key a :: t.visited⟩

def visitAll (t : Traversal α κ) (l : List α) : Traversal α κ := l.foldl (visit same key) t

def rank (U : Finset κ) (t : Traversal α κ) : ℕ :=
  2 * (U.filter (· ∉ t.visited)).card + t.worklist.length

end Traversal

section

variable {same : α → α → Bool} {key : α → κ} {t : Traversal α κ}

omit [DecidableEq κ] in
theorem mem_push_of_mem {l : List α} {a b : α} (h : b ∈ l) : b ∈ push same l a := by
  rw [push]
  split
  · exact h
  · exact List.mem_append_left _ h

omit [DecidableEq κ] in
theorem mem_of_mem_push {l : List α} {a b : α} (h : b ∈ push same l a) : b ∈ l ∨ b = a := by
  rw [push] at h
  split at h
  · exact .inl h
  · exact (List.mem_append.mp h).imp_right List.mem_singleton.mp

omit [DecidableEq κ] in
theorem exists_mem_push (hsame : ∀ a b, same a b = true → key a = key b) (l : List α) (a : α) :
    ∃ b ∈ push same l a, key b = key a := by
  rw [push]
  split
  · rename_i hany
    obtain ⟨b, hb, heq⟩ := List.any_eq_true.mp hany
    exact ⟨b, hb, (hsame a b heq).symm⟩
  · exact ⟨a, List.mem_append_right _ (List.mem_singleton_self a), rfl⟩

omit [DecidableEq κ] in
theorem length_push_le (l : List α) (a : α) : (push same l a).length ≤ l.length + 1 := by
  rw [push]
  split
  · omega
  · rw [List.length_append, List.length_singleton]

theorem visited_visit (a : α) (k : κ) :
    k ∈ (t.visit same key a).visited ↔ k ∈ t.visited ∨ k = key a := by
  rw [Traversal.visit]
  split
  · rename_i ha
    constructor
    · exact Or.inl
    · rintro (hk | rfl)
      · exact hk
      · exact ha
  · rw [List.mem_cons, or_comm]

theorem worklist_visit_mono {a b : α} (h : b ∈ t.worklist) :
    b ∈ (t.visit same key a).worklist := by
  rw [Traversal.visit]
  split
  · exact h
  · exact mem_push_of_mem h

theorem mem_worklist_visit {a b : α} (h : b ∈ (t.visit same key a).worklist) :
    b ∈ t.worklist ∨ b = a := by
  rw [Traversal.visit] at h
  split at h
  · exact .inl h
  · exact mem_of_mem_push h

theorem visit_pending (hsame : ∀ a b, same a b = true → key a = key b) {a : α} {k : κ}
    (hk : k ∈ (t.visit same key a).visited) :
    k ∈ t.visited ∨ ∃ b ∈ (t.visit same key a).worklist, key b = k := by
  rw [Traversal.visit] at hk ⊢
  split at hk
  · exact .inl hk
  · rename_i ha
    rw [if_neg ha]
    rcases List.mem_cons.mp hk with rfl | hk
    · exact .inr (exists_mem_push hsame _ _)
    · exact .inl hk

theorem rank_le (U : Finset κ) (t : Traversal α κ) : t.rank U ≤ 2 * U.card + t.worklist.length :=
  Nat.add_le_add_right (Nat.mul_le_mul_left 2 (Finset.card_filter_le U _)) _

theorem rank_visit_le {U : Finset κ} {a : α} (ha : key a ∈ U) :
    (t.visit same key a).rank U ≤ t.rank U := by
  rw [Traversal.visit]
  split
  · exact le_rfl
  · rename_i hnew
    have hsub : U.filter (· ∉ key a :: t.visited) ⊂ U.filter (· ∉ t.visited) := by
      refine Finset.ssubset_iff_subset_ne.mpr ⟨fun k hk => ?_, fun heq => ?_⟩
      · rw [Finset.mem_filter, List.mem_cons, not_or] at hk
        exact Finset.mem_filter.mpr ⟨hk.1, hk.2.2⟩
      · have hmem : key a ∈ U.filter (· ∉ t.visited) := Finset.mem_filter.mpr ⟨ha, hnew⟩
        rw [← heq, Finset.mem_filter] at hmem
        exact hmem.2 List.mem_cons_self
    have hcard := Finset.card_lt_card hsub
    have hlength : (push same t.worklist a).length ≤ t.worklist.length + 1 := length_push_le t.worklist a
    simp only [Traversal.rank]
    omega

theorem visited_visitAll (l : List α) (k : κ) :
    k ∈ (t.visitAll same key l).visited ↔ k ∈ t.visited ∨ ∃ a ∈ l, k = key a := by
  rw [Traversal.visitAll]
  induction l generalizing t with
  | nil => simp
  | cons a l ih => rw [List.foldl_cons, ih, visited_visit, List.exists_mem_cons_iff, or_assoc]

theorem worklist_visitAll_mono {l : List α} {b : α} (h : b ∈ t.worklist) :
    b ∈ (t.visitAll same key l).worklist := by
  rw [Traversal.visitAll]
  induction l generalizing t with
  | nil => exact h
  | cons a l ih => exact ih (worklist_visit_mono h)

theorem mem_worklist_visitAll {l : List α} {b : α} (h : b ∈ (t.visitAll same key l).worklist) :
    b ∈ t.worklist ∨ b ∈ l := by
  rw [Traversal.visitAll] at h
  induction l generalizing t with
  | nil => exact .inl h
  | cons a l ih =>
      rcases ih h with h | h
      · exact (mem_worklist_visit h).imp_right fun heq => List.mem_cons.mpr (.inl heq)
      · exact .inr (List.mem_cons_of_mem a h)

theorem visitAll_pending (hsame : ∀ a b, same a b = true → key a = key b) {l : List α} {k : κ}
    (hk : k ∈ (t.visitAll same key l).visited) :
    k ∈ t.visited ∨ ∃ b ∈ (t.visitAll same key l).worklist, key b = k := by
  rw [Traversal.visitAll] at hk ⊢
  induction l generalizing t with
  | nil => exact .inl hk
  | cons a l ih =>
      rcases ih hk with hk | hpending
      · rcases visit_pending hsame hk with hk | ⟨b, hb, heq⟩
        · exact .inl hk
        · exact .inr ⟨b, worklist_visitAll_mono (t := t.visit same key a) (l := l) hb, heq⟩
      · exact .inr hpending

theorem rank_visitAll_le {U : Finset κ} {l : List α} (hl : ∀ a ∈ l, key a ∈ U) :
    (t.visitAll same key l).rank U ≤ t.rank U := by
  rw [Traversal.visitAll]
  induction l generalizing t with
  | nil => exact le_rfl
  | cons a l ih =>
      exact (ih fun b hb => hl b (List.mem_cons_of_mem a hb)).trans
        (rank_visit_le (hl a List.mem_cons_self))

theorem rank_processed_lt {U : Finset κ} {a : α} {rest l : List α} {visited : List κ}
    (hl : ∀ b ∈ l, key b ∈ U) :
    (Traversal.visitAll same key ⟨rest, visited⟩ l).rank U <
      (⟨a :: rest, visited⟩ : Traversal α κ).rank U := by
  refine (rank_visitAll_le hl).trans_lt ?_
  simp only [Traversal.rank, List.length_cons]
  omega

end

section

/-- What has been started or visited is pending, or it has been processed: then it is
`done` and its successors have been visited. -/
def Explored (key : α → κ) (next : κ → κ → Prop) (started done : κ → Prop)
    (t : Traversal α κ) : Prop :=
  ∀ k, started k ∨ k ∈ t.visited →
    (∃ a ∈ t.worklist, key a = k) ∨ done k ∧ ∀ k', next k k' → k' ∈ t.visited

variable {same : α → α → Bool} {key : α → κ} {next : κ → κ → Prop} {started done done' : κ → Prop}

theorem Explored.processed (hsame : ∀ a b, same a b = true → key a = key b) {a : α}
    {rest l : List α} {visited : List κ}
    (h : Explored key next started done ⟨a :: rest, visited⟩)
    (hdone : ∀ k, done k → done' k) (ha : done' (key a))
    (hnext : ∀ k', next (key a) k' → ∃ b ∈ l, k' = key b) :
    Explored key next started done' (Traversal.visitAll same key ⟨rest, visited⟩ l) := by
  intro k hk
  have hold : ∀ k', k' ∈ visited →
      k' ∈ (Traversal.visitAll same key ⟨rest, visited⟩ l).visited :=
    fun k' hk' => (visited_visitAll l k').mpr (.inl hk')
  have hentered : started k ∨ k ∈ visited →
      (∃ b ∈ (Traversal.visitAll same key ⟨rest, visited⟩ l).worklist, key b = k) ∨
        done' k ∧ ∀ k', next k k' →
          k' ∈ (Traversal.visitAll same key ⟨rest, visited⟩ l).visited := by
    intro hk
    rcases h k hk with ⟨b, hb, rfl⟩ | ⟨hd, hall⟩
    · rcases List.mem_cons.mp hb with rfl | hb
      · exact .inr ⟨ha, fun k' hk' => (visited_visitAll l k').mpr (.inr (hnext k' hk'))⟩
      · exact .inl ⟨b, worklist_visitAll_mono hb, rfl⟩
    · exact .inr ⟨hdone k hd, fun k' hk' => hold k' (hall k' hk')⟩
  rcases hk with hk | hk
  · exact hentered (.inl hk)
  · rcases visitAll_pending hsame hk with hk | hpending
    · exact hentered (.inr hk)
    · exact .inl hpending

omit [DecidableEq κ] in
theorem Explored.start (hsame : ∀ a b, same a b = true → key a = key b)
    {t : Traversal α κ} (h : Explored key next started done t) (a : α) :
    Explored key next (fun k => started k ∨ k = key a) done
      ⟨push same t.worklist a, t.visited⟩ := by
  rintro k ((hk | rfl) | hk)
  · exact (h k (.inl hk)).imp_left fun ⟨b, hb, heq⟩ => ⟨b, mem_push_of_mem hb, heq⟩
  · exact .inl (exists_mem_push hsame _ _)
  · exact (h k (.inr hk)).imp_left fun ⟨b, hb, heq⟩ => ⟨b, mem_push_of_mem hb, heq⟩

omit [DecidableEq κ] in
theorem Explored.finished {t : Traversal α κ} (h : Explored key next started done t)
    (hempty : t.worklist = []) {k : κ} (hk : started k ∨ k ∈ t.visited) :
    done k ∧ ∀ k', next k k' → k' ∈ t.visited := by
  rcases h k hk with ⟨a, ha, -⟩ | hprocessed
  · rw [hempty] at ha
    contradiction
  · exact hprocessed

variable {t : Traversal α κ} {k₀ k : κ}

omit [DecidableEq κ] in
theorem Explored.reached (h : Explored key next started done t) (hempty : t.worklist = [])
    (hstart : started k₀ ∨ k₀ ∈ t.visited) (hpath : ReflTransGen next k₀ k) : started k ∨ k ∈ t.visited := by
  induction hpath with
  | refl => exact hstart
  | tail _ hstep ih => exact .inr ((h.finished hempty ih).2 _ hstep)

omit [DecidableEq κ] in
theorem Explored.reached_again (h : Explored key next started done t) (hempty : t.worklist = [])
    (hstart : started k₀ ∨ k₀ ∈ t.visited) (hpath : TransGen next k₀ k) : k ∈ t.visited := by
  obtain ⟨k', hpath, hstep⟩ := TransGen.tail'_iff.mp hpath
  exact (h.finished hempty (h.reached hempty hstart hpath)).2 k hstep

end

section

/-- A search with a stack that gives up at a goal and does not go on from a stop:
whether it met no goal, and what it visited. -/
def search (goal stop : κ → Bool) (next : κ → List κ) : ℕ → List κ → List κ → Option (Bool × List κ)
  | _, [], visited => some (true, visited)
  | 0, _ :: _, _ => none
  | fuel + 1, a :: stack, visited =>
      if goal a then some (false, visited)
      else if a ∈ visited then search goal stop next fuel stack visited
      else if stop a then search goal stop next fuel stack (a :: visited)
      else search goal stop next fuel ((next a).reverse ++ stack) (a :: visited)

def Onward (stop : κ → Bool) (next : κ → List κ) (a b : κ) : Prop := stop a = false ∧ b ∈ next a

/-- What was visited before, or from the roots and then with its successors. -/
structure Searched (goal stop : κ → Bool) (next : κ → List κ) (roots before stack visited : List κ) :
    Prop where
  pending : ∀ a ∈ stack, ∃ r ∈ roots, ReflTransGen (Onward stop next) r a
  found : ∀ a ∈ visited, a ∈ before ∨
    goal a = false ∧ (∃ r ∈ roots, ReflTransGen (Onward stop next) r a) ∧
      (stop a = false → ∀ b ∈ next a, b ∈ visited ∨ b ∈ stack)
  kept : ∀ a ∈ before, a ∈ visited
  rooted : ∀ r ∈ roots, r ∈ visited ∨ r ∈ stack

variable {goal stop : κ → Bool} {next : κ → List κ} {roots before stack visited : List κ} {a : κ}

omit [DecidableEq κ] in
theorem searched_start (roots before : List κ) : Searched goal stop next roots before roots before where
  pending a ha := ⟨a, ha, .refl⟩
  found _ ha := .inl ha
  kept _ ha := ha
  rooted _ hr := .inr hr

omit [DecidableEq κ] in
theorem Searched.skip (h : Searched goal stop next roots before (a :: stack) visited)
    (ha : a ∈ visited) : Searched goal stop next roots before stack visited := by
  have hdrop : ∀ b, b ∈ visited ∨ b ∈ a :: stack → b ∈ visited ∨ b ∈ stack := by
    rintro b (hb | hb)
    · exact .inl hb
    · rcases List.mem_cons.mp hb with rfl | hb
      · exact .inl ha
      · exact .inr hb
  refine ⟨fun b hb => h.pending b (List.mem_cons_of_mem a hb), fun b hb => ?_, h.kept,
    fun r hr => hdrop r (h.rooted r hr)⟩
  exact (h.found b hb).imp_right fun hnew =>
    ⟨hnew.1, hnew.2.1, fun hstop c hc => hdrop c (hnew.2.2 hstop c hc)⟩

omit [DecidableEq κ] in
theorem Searched.visit (h : Searched goal stop next roots before (a :: stack) visited)
    (hgoal : goal a = false) : Searched goal stop next roots before
      ((if stop a then [] else (next a).reverse) ++ stack) (a :: visited) := by
  obtain ⟨r, hr, hpath⟩ := h.pending a List.mem_cons_self
  have hkeep : ∀ b, b ∈ visited ∨ b ∈ a :: stack →
      b ∈ a :: visited ∨ b ∈ (if stop a then [] else (next a).reverse) ++ stack := by
    rintro b (hb | hb)
    · exact .inl (List.mem_cons_of_mem a hb)
    · rcases List.mem_cons.mp hb with rfl | hb
      · exact .inl List.mem_cons_self
      · exact .inr (List.mem_append_right _ hb)
  refine ⟨fun b hb => ?_, fun b hb => ?_, fun b hb => List.mem_cons_of_mem a (h.kept b hb),
    fun r hr => hkeep r (h.rooted r hr)⟩
  · rcases List.mem_append.mp hb with hb | hb
    · split at hb
      · exact absurd hb List.not_mem_nil
      · rename_i hstop
        exact ⟨r, hr, hpath.tail ⟨by simpa using hstop, List.mem_reverse.mp hb⟩⟩
    · exact h.pending b (List.mem_cons_of_mem a hb)
  · rcases List.mem_cons.mp hb with rfl | hb
    · refine .inr ⟨hgoal, ⟨r, hr, hpath⟩, fun hstop c hc => .inr (List.mem_append_left _ ?_)⟩
      rw [if_neg (by simp [hstop])]
      exact List.mem_reverse.mpr hc
    · exact (h.found b hb).imp_right fun hnew =>
        ⟨hnew.1, hnew.2.1, fun hstop c hc => hkeep c (hnew.2.2 hstop c hc)⟩

/-- A search that ends without a goal has visited, beside what it started with,
what the roots lead to; one that gives up has a path from a root to a goal. -/
theorem search_spec {fuel : ℕ} {result : Bool × List κ}
    (h : Searched goal stop next roots before stack visited)
    (hrun : search goal stop next fuel stack visited = some result) :
    (result.1 = true → Searched goal stop next roots before [] result.2) ∧
      (result.1 = false → ∃ r ∈ roots, ∃ g, goal g = true ∧ ReflTransGen (Onward stop next) r g) := by
  induction fuel generalizing stack visited with
  | zero =>
      cases stack with
      | nil =>
          cases hrun
          exact ⟨fun _ => h, fun hfalse => Bool.noConfusion hfalse⟩
      | cons a stack => contradiction
  | succ fuel ih =>
      cases stack with
      | nil =>
          cases hrun
          exact ⟨fun _ => h, fun hfalse => Bool.noConfusion hfalse⟩
      | cons a stack =>
          rw [search] at hrun
          split at hrun
          · rename_i hgoal
            cases hrun
            obtain ⟨r, hr, hpath⟩ := h.pending a List.mem_cons_self
            exact ⟨fun htrue => Bool.noConfusion htrue, fun _ => ⟨r, hr, a, hgoal, hpath⟩⟩
          · rename_i hgoal
            have hvisit := h.visit (by simpa using hgoal)
            split at hrun
            · rename_i hmem
              exact ih (h.skip hmem) hrun
            · split at hrun
              · rename_i hstop
                rw [if_pos hstop] at hvisit
                exact ih hvisit hrun
              · rename_i hstop
                rw [if_neg hstop] at hvisit
                exact ih hvisit hrun

omit [DecidableEq κ] in
theorem Searched.mem_iff (h : Searched goal stop next roots [] [] visited) {b : κ} :
    b ∈ visited ↔ ∃ r ∈ roots, ReflTransGen (Onward stop next) r b := by
  constructor
  · intro hb
    exact ((h.found b hb).resolve_left List.not_mem_nil).2.1
  · rintro ⟨r, hr, hpath⟩
    induction hpath with
    | refl => exact (h.rooted r hr).resolve_right List.not_mem_nil
    | tail _ hstep ih =>
        have hnew := (h.found _ ih).resolve_left List.not_mem_nil
        exact (hnew.2.2 hstep.1 _ hstep.2).resolve_right List.not_mem_nil

theorem length_unvisited (edges : List (κ × κ)) (ha : a ∉ visited) :
    (edges.filter (·.1 ∉ a :: visited)).length + (edges.filter (·.1 = a)).length =
      (edges.filter (·.1 ∉ visited)).length := by
  induction edges with
  | nil => rfl
  | cons e edges ih =>
      by_cases he : e.1 = a
      · simp [he, ha] at ih ⊢
        omega
      · by_cases hv : e.1 ∈ visited
        · simp [he, hv] at ih ⊢
          omega
        · simp [he, hv] at ih ⊢
          omega

/-- Every edge is followed once, so their number bounds the rounds. -/
theorem exists_search (goal stop : κ → Bool) {edges : List (κ × κ)} {next : κ → List κ}
    (hnext : ∀ a, (next a).length ≤ (edges.filter (·.1 = a)).length) {fuel : ℕ} {stack visited : List κ}
    (hfuel : stack.length + (edges.filter (·.1 ∉ visited)).length ≤ fuel) :
    ∃ result, search goal stop next fuel stack visited = some result := by
  induction fuel generalizing stack visited with
  | zero =>
      cases stack with
      | nil => exact ⟨_, rfl⟩
      | cons a stack =>
          rw [List.length_cons] at hfuel
          omega
  | succ fuel ih =>
      cases stack with
      | nil => exact ⟨_, rfl⟩
      | cons a stack =>
          rw [List.length_cons] at hfuel
          rw [search]
          split
          · exact ⟨_, rfl⟩
          · split
            · exact ih (by omega)
            · rename_i ha
              have hlength := length_unvisited edges ha
              have hout := hnext a
              split
              · exact ih (by omega)
              · refine ih ?_
                rw [List.length_append, List.length_reverse]
                omega

end

end SVF.Util.Traversals
