import Mathlib.Data.List.Perm.Lattice
import Mathlib.Data.List.Infix
import SVF.CFL.CFGNormalizer
import SVF.Util.Languages

namespace SVF.CFL.Binarization

open Util.DefaultMaps Util.Languages CFGNormalizer

def IsTerminal (g : CFGrammar) (a : Symbol) : Prop := ∃ p ∈ g.terminals, p.2 = a.kind.val

def IsProduction (g : CFGrammar) (A : Symbol) (r : Production) : Prop :=
  A :: r ∈ g.rawProductions.get A

def HasProduction (g : CFGrammar) (A : Symbol) (r : Production) : Prop :=
  r ∈ g.rawProductions.get A

def IsOriginal (g : CFGrammar) (a : Symbol) : Prop := a.kind.val < g.totalKind

structure WellFormed (g : CFGrammar) : Prop where
  head : ∀ A, ∀ r ∈ g.rawProductions.get A, ∃ w, r = A :: w
  symbols : ∀ A, ∀ r ∈ g.rawProductions.get A, ∀ a ∈ r, IsOriginal g a
  nodup : ∀ A, (g.rawProductions.get A).Nodup
  terminals : ∀ p ∈ g.terminals, p.2 < g.totalKind
  keys : ∀ A ∈ g.rawProductions.keys, A ≠ notFound

/-- A two-symbol right-hand side of `A`, of the grammar itself or of a rule of
three symbols whose last two have a head already. -/
inductive Known (g : CFGrammar) : Symbol → Production → Prop
  | production (A : Symbol) (s : Production) (h : IsProduction g A s) : Known g A s
  | reused (A f X : Symbol) (s : Production) (h : IsProduction g A (f :: s)) (hs : s.length = 2)
      (hX : Known g X s) : Known g A [f, X]

def need (r : Production) : ℕ := if r.length < 4 then 0 else r.length - 2

/-- The pairs that end a rule of three symbols and have no head. -/
def pairs (g : CFGrammar) : List Production :=
  (((g.rawProductions.keys.flatMap g.rawProductions.get).filter (fun r => r.length = 4)).map
    (·.drop 2)).dedup.filter
    (fun s => ∀ A ∈ g.rawProductions.keys, A :: s ∉ g.rawProductions.get A)

def longNeed (g : CFGrammar) : ℕ :=
  (g.rawProductions.keys.map
    (fun A => ((g.rawProductions.get A).map (fun r => need r.tail)).sum)).sum

def newSymbols (g : CFGrammar) : ℕ := longNeed g + (pairs g).length

structure Binarizable (g : CFGrammar) : Prop where
  leftRecursion : ∀ A w, IsProduction g A (A :: w) → ¬ IsProduction g A w
  kinds : g.totalKind + newSymbols g ≤ 2 ^ 8
  names : ∀ n, g.newTerminalSubscript ≤ n → n < g.newTerminalSubscript + newSymbols g →
    g.nonterminals.lookup ("X" ++ n.repr) = none
  inner : ∀ A r s, IsProduction g A r → 4 ≤ r.length → s <:+ r → s.length = 2 →
    ∀ X, ¬ Known g X s
  shared : ∀ A B r r' s, IsProduction g A r → IsProduction g B r' → 4 ≤ r.length →
    3 ≤ r'.length → s <:+ r → s <:+ r' → s.length = 2 → A = B ∧ r = r'
  reuse : ∀ A f X s, IsProduction g A (f :: s) → s.length = 2 → Known g X s →
    ∀ w, Generates (IsProduction g) (IsTerminal g) [f, X] w →
      Generates (IsProduction g) (IsTerminal g) [A] w

def dropHead (rules : Productions) (rule : Production) : Productions :=
  (rules.erase rule).insert rule.tail

theorem foldl_dropHead (l moved acc : Productions) (hacc : acc.Perm (moved.map List.tail ++ l))
    (hne : ∀ r ∈ moved ++ l, ∀ r' ∈ moved ++ l, r.tail ≠ r')
    (hnodup : ((moved ++ l).map List.tail).Nodup) :
    (l.foldl dropHead acc).Perm ((moved ++ l).map List.tail) := by
  induction l generalizing moved acc with
  | nil => simpa using hacc
  | cons r l ih =>
      have hassoc : moved ++ r :: l = (moved ++ [r]) ++ l := by simp
      have hmoved : r ∉ moved.map List.tail := by
        intro hr
        obtain ⟨r₀, hr₀, heq⟩ := List.mem_map.mp hr
        exact hne r₀ (by simp [hr₀]) r (by simp) heq
      have herase : (acc.erase r).Perm (moved.map List.tail ++ l) := by
        have h := hacc.erase r
        rwa [List.erase_append_right _ hmoved, List.erase_cons_head] at h
      have htail : r.tail ∉ acc.erase r := by
        intro hr
        rcases List.mem_append.mp (herase.subset hr) with hm | hm
        · rw [List.map_append, List.nodup_append] at hnodup
          exact hnodup.2.2 _ hm _ (by simp) rfl
        · exact hne r (by simp) r.tail (by simp [hm]) rfl
      have hnext : (dropHead acc r).Perm ((moved ++ [r]).map List.tail ++ l) := by
        rw [dropHead, List.insert_of_not_mem htail]
        refine (herase.cons r.tail).trans ?_
        simpa using List.perm_middle.symm
      rw [List.foldl_cons, hassoc]
      exact ih (moved ++ [r]) _ hnext (hassoc ▸ hne) (hassoc ▸ hnodup)

def withProductions (g : CFGrammar) (R : SymbolMap) : CFGrammar := { g with rawProductions := R }

theorem foldl_dropHead_grammar (head : Symbol) (rules : Productions) (g : CFGrammar)
    (hhead : head ∈ g.rawProductions.keys) :
    ∃ R : SymbolMap, rules.foldl (fun g rule =>
        (g.eraseProduction head rule).insertProduction head rule.tail) g = withProductions g R ∧
      R.keys = g.rawProductions.keys ∧
      R.get head = rules.foldl dropHead (g.rawProductions.get head) ∧
      ∀ A, A ≠ head → R.get A = g.rawProductions.get A := by
  induction rules generalizing g with
  | nil => exact ⟨g.rawProductions, rfl, rfl, rfl, fun _ _ => rfl⟩
  | cons rule rules ih =>
      have hkeys : ∀ (m : SymbolMap) (f : Productions → Productions), head ∈ m.keys →
          (m.modify head f).keys = m.keys := by
        intro m f hm
        simp [DefaultMap.modify, DefaultMap.set, DefaultMap.touch, hm]
      let g' := (g.eraseProduction head rule).insertProduction head rule.tail
      have hkeys' : g'.rawProductions.keys = g.rawProductions.keys := by
        have h := hkeys g.rawProductions (·.erase rule) hhead
        exact (hkeys _ _ (h ▸ hhead)).trans h
      obtain ⟨R, hR, hkeysR, hget, hother⟩ := ih g' (hkeys' ▸ hhead)
      refine ⟨R, hR, hkeysR.trans hkeys', ?_, fun A hA => ?_⟩
      · rw [hget, List.foldl_cons]
        simp [g', CFGrammar.eraseProduction, CFGrammar.insertProduction, get_modify, dropHead]
      · rw [hother A hA]
        simp [g', CFGrammar.eraseProduction, CFGrammar.insertProduction, get_modify, hA]

theorem foldl_keys_dropHead (heads : List Symbol) (hheads : heads.Nodup) (g : CFGrammar)
    (hsub : heads ⊆ g.rawProductions.keys) :
    ∃ R : SymbolMap, heads.foldl (fun g head =>
        (g.rawProductions.get head).foldl (fun g rule =>
          (g.eraseProduction head rule).insertProduction head rule.tail) g) g =
          withProductions g R ∧
      R.keys = g.rawProductions.keys ∧
      (∀ A ∈ heads, R.get A = (g.rawProductions.get A).foldl dropHead (g.rawProductions.get A)) ∧
      ∀ A, A ∉ heads → R.get A = g.rawProductions.get A := by
  induction heads generalizing g with
  | nil => exact ⟨g.rawProductions, rfl, rfl, by simp, fun _ _ => rfl⟩
  | cons head heads ih =>
      obtain ⟨hnot, hheads⟩ := List.nodup_cons.mp hheads
      obtain ⟨hhead, hsub⟩ := List.cons_subset.mp hsub
      obtain ⟨R₁, hR₁, hkeys₁, hget₁, hother₁⟩ := foldl_dropHead_grammar head
        (g.rawProductions.get head) g hhead
      obtain ⟨R, hR, hkeys, hget, hother⟩ := ih hheads (withProductions g R₁) (by
        rw [withProductions, hkeys₁]
        exact hsub)
      refine ⟨R, ?_, hkeys.trans hkeys₁, fun A hA => ?_, fun A hA => ?_⟩
      · rw [List.foldl_cons, hR₁, hR]
        rfl
      · rcases List.mem_cons.mp hA with rfl | hA
        · exact (hother A hnot).trans hget₁
        · have hne : A ≠ head := fun h => hnot (h ▸ hA)
          rw [hget A hA, withProductions, hother₁ A hne]
      · rw [List.mem_cons, not_or] at hA
        exact (hother A hA.2).trans (hother₁ A hA.1)

theorem removeFirstSymbol_spec {g : CFGrammar} (hg : WellFormed g)
    (hleft : ∀ A w, IsProduction g A (A :: w) → ¬ IsProduction g A w) :
    ∃ R : SymbolMap, removeFirstSymbol g = withProductions g R ∧
      R.keys = g.rawProductions.keys ∧
      ∀ A, (R.get A).Perm ((g.rawProductions.get A).map List.tail) := by
  obtain ⟨R, hR, hkeys, hget, hother⟩ := foldl_keys_dropHead g.rawProductions.keys
    g.rawProductions.nodup g (fun _ h => h)
  refine ⟨R, hR, hkeys, fun A => ?_⟩
  by_cases hA : A ∈ g.rawProductions.keys
  · rw [hget A hA]
    refine foldl_dropHead _ [] _ (.refl _) (fun r hr r' hr' heq => ?_) ?_
    · rw [List.nil_append] at hr hr'
      obtain ⟨w, rfl⟩ := hg.head A r hr
      obtain ⟨w', rfl⟩ := hg.head A r' hr'
      rw [List.tail_cons] at heq
      subst heq
      exact hleft A w' hr hr'
    · rw [List.nil_append]
      refine List.Nodup.map_on (fun r hr r' hr' heq => ?_) (hg.nodup A)
      obtain ⟨w, rfl⟩ := hg.head A r hr
      obtain ⟨w', rfl⟩ := hg.head A r' hr'
      exact congrArg (A :: ·) heq
  · rw [hother A hA, g.rawProductions.get_absent A hA]
    exact .refl _

theorem mem_of_perm_tail {g : CFGrammar} (hg : WellFormed g) {R : SymbolMap} {A : Symbol}
    (hR : (R.get A).Perm ((g.rawProductions.get A).map List.tail)) {r : Production} :
    r ∈ R.get A ↔ IsProduction g A r := by
  rw [hR.mem_iff, List.mem_map]
  constructor
  · rintro ⟨r', hr', rfl⟩
    obtain ⟨w, rfl⟩ := hg.head A r' hr'
    exact hr'
  · intro h
    exact ⟨A :: r, h, rfl⟩

end SVF.CFL.Binarization
