import Mathlib.Data.List.Perm.Subperm
import SVF.CFL.Binarization

namespace SVF.CFL.LongRules

open Util.DefaultMaps CFGNormalizer Binarization

variable {g : CFGrammar}

abbrev Naming := Symbol → Option Production

def Heads (g : CFGrammar) (μ : Naming) (R : SymbolMap) (X : Symbol) (s : Production) : Prop :=
  μ X = some s ∨ s.length = 2 ∧ s ∈ R.get X ∧ Known g X s

/-- `D`: the rules replaced so far. `E`: those whose suffixes have symbols. `named`: the pairs that took a symbol of
their own. `b`: the symbols that the remaining long rules take. `cur`: what
the inner loop has still to split. -/
structure Invariant (g : CFGrammar) (D E : Symbol → Production → Prop) (μ : Naming)
    (named : List Production) (b : ℕ) (cur : Symbol → Production → Prop)
    (G : CFGrammar) (N : SymbolMap) : Prop where
  nodup : ∀ A, (G.rawProductions.get A).Nodup
  kept : ∀ A r, IsProduction g A r → ¬ D A r → r ∈ G.rawProductions.get A
  raw : ∀ A, ∀ r ∈ G.rawProductions.get A, IsProduction g A r ∧ ¬ D A r ∨
    ∃ f s X, r = [f, X] ∧ IsProduction g A (f :: s) ∧ 2 ≤ s.length ∧
      Heads g μ G.rawProductions X s
  replaced : ∀ A r, D A r → IsProduction g A r ∧ ∃ f s X, r = f :: s ∧ 2 ≤ s.length ∧
    [f, X] ∈ G.rawProductions.get A ∧ Heads g μ G.rawProductions X s
  fresh : ∀ X s, μ X = some s →
    g.totalKind ≤ X.kind.val ∧ X.kind.val < G.totalKind ∧ X.attr = 0
  origin : ∀ X s, μ X = some s → 2 ≤ s.length ∧ ∃ A r, E A r ∧ s <:+ r
  new : ∀ X, ∀ s ∈ N.get X, μ X = some s ∧ (s.length = 2 ∨ cur X s) ∨
    (∃ a t Y, s = [a, Y] ∧ μ X = some (a :: t) ∧ μ Y = some t) ∨
    s.length = 2 ∧ s ∈ G.rawProductions.get X ∧ Known g X s
  defined : ∀ X s, μ X = some s → s ∈ N.get X ∨
    ∃ a t Y, s = a :: t ∧ [a, Y] ∈ N.get X ∧ μ Y = some t
  terminals : G.terminals = g.terminals
  totalKind : g.totalKind ≤ G.totalKind
  kinds : G.totalKind + b + (pairs g).length ≤ 2 ^ 8 + named.length
  names : ∀ n, G.newTerminalSubscript ≤ n →
    n + named.length < G.newTerminalSubscript + b + (pairs g).length →
    G.nonterminals.lookup ("X" ++ n.repr) = none
  named : named.Nodup ∧ named ⊆ pairs g ∧ ∀ s ∈ named, ∃ X, μ X = some s

variable {D E : Symbol → Production → Prop} {μ : Naming} {named : List Production} {b : ℕ}
  {cur : Symbol → Production → Prop} {G : CFGrammar} {N : SymbolMap}

theorem isOriginal_of_mem (hg : WellFormed g) {A a : Symbol} {r : Production}
    (h : IsProduction g A r) (ha : a ∈ r) : IsOriginal g a :=
  hg.symbols A _ h a (List.mem_cons_of_mem A ha)

theorem isOriginal_head (hg : WellFormed g) {A : Symbol} {r : Production}
    (h : IsProduction g A r) : IsOriginal g A :=
  hg.symbols A _ h A List.mem_cons_self

theorem isOriginal_of_known (hg : WellFormed g) {X : Symbol} {s : Production} (h : Known g X s) :
    IsOriginal g X := by
  cases h with
  | production _ _ h => exact isOriginal_head hg h
  | reused _ _ _ _ h _ _ => exact isOriginal_head hg h

namespace Invariant

theorem not_original (h : Invariant g D E μ named b cur G N) {X : Symbol} {s : Production}
    (hX : μ X = some s) : ¬ IsOriginal g X := by
  have hle := (h.fresh X s hX).1
  rw [IsOriginal]
  omega

theorem found (h : Invariant g D E μ named b cur G N) {X : Symbol} {s : Production}
    (hs : ∀ a ∈ s, IsOriginal g a) (hX : s ∈ N.get X ∨ s ∈ G.rawProductions.get X) :
    μ X = some s ∧ (s.length = 2 ∨ cur X s) ∨
      s.length = 2 ∧ s ∈ G.rawProductions.get X ∧ Known g X s ∨
      s ∈ G.rawProductions.get X ∧ IsProduction g X s := by
  rcases hX with hX | hX
  · rcases h.new X s hX with hnew | ⟨a, t, Y, rfl, -, hY⟩ | hknown
    · exact .inl hnew
    · exact absurd (hs Y (by simp)) (h.not_original hY)
    · exact .inr (.inl hknown)
  · rcases h.raw X s hX with hP | ⟨f, t, Y, rfl, hP, ht, hY⟩
    · exact .inr (.inr ⟨hX, hP.1⟩)
    · rcases hY with hY | ⟨hlen, -, hknown⟩
      · exact absurd (hs Y (by simp)) (h.not_original hY)
      · exact .inr (.inl ⟨rfl, hX, .reused X f Y t hP hlen hknown⟩)

end Invariant

theorem exists_pair_suffix {s : Production} (hs : 2 ≤ s.length) :
    ∃ p : Production, p <:+ s ∧ p.length = 2 :=
  ⟨s.drop (s.length - 2), List.drop_suffix _ _, by rw [List.length_drop]; omega⟩

theorem mem_of_check_head {m : SymbolMap} {s : Production} (h : check_head m s ≠ notFound) :
    s ∈ m.get (check_head m s) := by
  cases hf : m.keys.find? (fun head => decide (s ∈ m.get head)) with
  | none => exact absurd (by simp [check_head, hf]) h
  | some X =>
      have hX : check_head m s = X := by simp [check_head, hf]
      rw [hX]
      simpa using List.find?_some hf

theorem check_head_ne_notFound {m : SymbolMap} {s : Production} {X : Symbol} (h : s ∈ m.get X)
    (hm : ∀ Y, s ∈ m.get Y → Y ≠ notFound) : check_head m s ≠ notFound := by
  have hX : X ∈ m.keys := by
    by_contra hX
    rw [m.get_absent X hX] at h
    exact List.not_mem_nil h
  cases hf : m.keys.find? (fun head => decide (s ∈ m.get head)) with
  | none =>
      have hnone := List.find?_eq_none.mp hf X hX
      exact absurd h (by simpa using hnone)
  | some Y =>
      have hY : check_head m s = Y := by simp [check_head, hf]
      rw [hY]
      exact hm Y (by simpa using List.find?_some hf)

theorem mem_of_checkHeads {s : Production} (h : checkHeads G N s ≠ notFound) :
    s ∈ N.get (checkHeads G N s) ∨ s ∈ G.rawProductions.get (checkHeads G N s) := by
  unfold checkHeads at h ⊢
  split at h
  · rename_i hN
    rw [if_pos hN]
    exact .inr (mem_of_check_head h)
  · rename_i hN
    rw [if_neg hN]
    exact .inl (mem_of_check_head h)

theorem not_mem_of_checkHeads (h : checkHeads G N s = notFound)
    (hN : ∀ Y, s ∈ N.get Y → Y ≠ notFound)
    (hR : ∀ Y, s ∈ G.rawProductions.get Y → Y ≠ notFound) (X : Symbol) :
    s ∉ N.get X ∧ s ∉ G.rawProductions.get X := by
  have hnew : check_head N s = notFound := by
    by_contra hne
    rw [checkHeads, if_neg hne] at h
    exact hne h
  rw [checkHeads, if_pos hnew] at h
  exact ⟨fun hX => check_head_ne_notFound hX hN hnew, fun hX => check_head_ne_notFound hX hR h⟩

def withSymbol (G : CFGrammar) : CFGrammar :=
  { G with
    nonterminals := ("X" ++ G.newTerminalSubscript.repr, G.totalKind) :: G.nonterminals
    totalKind := G.totalKind + 1
    newTerminalSubscript := G.newTerminalSubscript + 1 }

theorem insertTempSym_eq {l : Production}
    (h : G.nonterminals.lookup ("X" ++ G.newTerminalSubscript.repr) = none) :
    ∃ v, insertTempSym G l = (withSymbol G, ⟨Fin.ofNat (2 ^ 8) G.totalKind, 0, v⟩) := by
  have hinsert : ∀ v, CFGrammar.insertNonTerminalSymbol G.num_generator.1
      ("X" ++ G.newTerminalSubscript.repr) v =
        (withSymbol G, ⟨Fin.ofNat (2 ^ 8) G.totalKind, 0, v⟩) := by
    intro v
    simp [CFGrammar.insertNonTerminalSymbol, CFGrammar.insertNonterminalKind,
      CFGrammar.num_generator, h, withSymbol]
  simp only [insertTempSym]
  split
  · rename_i a _
    exact ⟨a, hinsert a⟩
  · exact ⟨0, hinsert 0⟩

theorem exists_fresh (l : Production)
    (h : G.nonterminals.lookup ("X" ++ G.newTerminalSubscript.repr) = none)
    (hkind : G.totalKind < 2 ^ 8) :
    ∃ Y, insertTempSym G l = (withSymbol G, Y) ∧ Y.kind.val = G.totalKind ∧ Y.attr = 0 := by
  obtain ⟨v, hv⟩ := insertTempSym_eq (l := l) h
  exact ⟨_, hv, Nat.mod_eq_of_lt hkind, rfl⟩

theorem Heads.mono {ν : Naming} {R R' : SymbolMap} {X : Symbol} {s : Production}
    (h : Heads g μ R X s) (hμ : ∀ Z t, μ Z = some t → ν Z = some t)
    (hR : ∀ Z t, t.length = 2 → t ∈ R.get Z → t ∈ R'.get Z) : Heads g ν R' X s :=
  h.imp (hμ X s) (fun ⟨hlen, hs, hknown⟩ => ⟨hlen, hR X s hlen hs, hknown⟩)

/-- A new symbol `Y` for the suffix `l` of a replaced rule. -/
theorem Invariant.name {c : ℕ} (h : Invariant g D E μ named (b + c) cur G N)
    {Y : Symbol} {l : Production} (hkind : Y.kind.val = G.totalKind) (hattr : Y.attr = 0)
    (hl : 2 ≤ l.length) {A : Symbol} {r : Production} (hr : E A r) (hlr : l <:+ r)
    (named' : List Production) (hc : named'.length + c = named.length + 1)
    (hnamed : named'.Nodup ∧ named' ⊆ pairs g ∧ ∀ s ∈ named', s = l ∨ s ∈ named)
    {N' : SymbolMap} (hN : ∀ Z, N'.get Z = if Z = Y then [l] else N.get Z) :
    Invariant g D E (Function.update μ Y (some l)) named' b
      (fun Z s => cur Z s ∨ Z = Y ∧ s = l) (withSymbol G) N' := by
  have hY : μ Y = none := by
    cases hm : μ Y with
    | none => rfl
    | some s =>
        have hlt := (h.fresh Y s hm).2.1
        omega
  have hmono : ∀ Z t, μ Z = some t → Function.update μ Y (some l) Z = some t := by
    intro Z t hZ
    have hne : Z ≠ Y := by
      rintro rfl
      rw [hY] at hZ
      cases hZ
    rwa [Function.update_of_ne hne]
  have hheads : ∀ {X s}, Heads g μ G.rawProductions X s →
      Heads g (Function.update μ Y (some l)) (withSymbol G).rawProductions X s :=
    fun hX => hX.mono hmono (fun _ _ _ ht => ht)
  have hold : ∀ Z t, Function.update μ Y (some l) Z = some t →
      Z = Y ∧ t = l ∨ Z ≠ Y ∧ μ Z = some t := by
    intro Z t hZ
    by_cases hZY : Z = Y
    · subst hZY
      rw [Function.update_self, Option.some.injEq] at hZ
      exact .inl ⟨rfl, hZ.symm⟩
    · rw [Function.update_of_ne hZY] at hZ
      exact .inr ⟨hZY, hZ⟩
  constructor
  case nodup => exact h.nodup
  case kept => exact h.kept
  case raw =>
    intro A r hr
    rcases h.raw A r hr with hP | ⟨f, s, X, hrX, hP, hs, hX⟩
    · exact .inl hP
    · exact .inr ⟨f, s, X, hrX, hP, hs, hheads hX⟩
  case replaced =>
    intro A r hr
    obtain ⟨hP, f, s, X, hrs, hs, hmem, hX⟩ := h.replaced A r hr
    exact ⟨hP, f, s, X, hrs, hs, hmem, hheads hX⟩
  case fresh =>
    intro X s hX
    rcases hold X s hX with ⟨rfl, rfl⟩ | ⟨-, hX⟩
    · exact ⟨hkind ▸ h.totalKind, hkind ▸ Nat.lt_succ_self _, hattr⟩
    · obtain ⟨hle, hlt, ha⟩ := h.fresh X s hX
      exact ⟨hle, Nat.lt_succ_of_lt hlt, ha⟩
  case origin =>
    intro X s hX
    rcases hold X s hX with ⟨rfl, rfl⟩ | ⟨-, hX⟩
    · exact ⟨hl, A, r, hr, hlr⟩
    · exact h.origin X s hX
  case new =>
    intro X s hs
    rw [hN X] at hs
    by_cases hXY : X = Y
    · subst hXY
      rw [if_pos rfl, List.mem_singleton] at hs
      subst hs
      exact .inl ⟨Function.update_self .., .inr (.inr ⟨rfl, rfl⟩)⟩
    · rw [if_neg hXY] at hs
      rcases h.new X s hs with ⟨hX, hcur⟩ | ⟨a, t, Z, rfl, hX, hZ⟩ | hknown
      · exact .inl ⟨hmono X s hX, hcur.imp id .inl⟩
      · exact .inr (.inl ⟨a, t, Z, rfl, hmono X _ hX, hmono Z t hZ⟩)
      · exact .inr (.inr hknown)
  case defined =>
    intro X s hX
    rcases hold X s hX with ⟨rfl, rfl⟩ | ⟨hne, hX⟩
    · left
      simp [hN]
    · rw [hN X, if_neg hne]
      rcases h.defined X s hX with hs | ⟨a, t, Z, hst, hmem, hZ⟩
      · exact .inl hs
      · exact .inr ⟨a, t, Z, hst, hmem, hmono Z t hZ⟩
  case terminals => exact h.terminals
  case totalKind => exact Nat.le_succ_of_le h.totalKind
  case kinds =>
    have hkinds := h.kinds
    simp only [withSymbol]
    omega
  case names =>
    intro n hn hlt
    simp only [withSymbol] at hn hlt ⊢
    have hne : ("X" ++ n.repr == "X" ++ G.newTerminalSubscript.repr) = false := by
      rw [beq_eq_false_iff_ne, Ne, String.append_right_inj]
      intro heq
      have hdigits := congrArg (fun str => Nat.ofDigitChars 10 str.toList 0) heq
      simp only [Nat.toList_repr, Nat.ofDigitChars_ten_toDigits] at hdigits
      omega
    rw [List.lookup_cons, hne]
    exact h.names n (by omega) (by omega)
  case named =>
    obtain ⟨hnd, hsub, hmem⟩ := hnamed
    refine ⟨hnd, hsub, fun s hs => ?_⟩
    rcases hmem s hs with rfl | hs
    · exact ⟨Y, Function.update_self ..⟩
    · obtain ⟨X, hX⟩ := h.named.2.2 s hs
      exact ⟨X, hmono X s hX⟩

/-- The rule of a symbol that was just named is cut after its first symbol. -/
theorem Invariant.relink (h : Invariant g D E μ named b cur G N) {X Y : Symbol} {a : Symbol}
    {t : Production} (hX : μ X = some (a :: t)) (hY : μ Y = some t) {N' : SymbolMap}
    (hN : ∀ Z, N'.get Z = if Z = X then [[a, Y]] else N.get Z) :
    Invariant g D E μ named b (fun Z s => cur Z s ∧ Z ≠ X) G N' := by
  refine { h with new := ?_, defined := ?_ }
  · intro Z s hs
    rw [hN Z] at hs
    by_cases hZ : Z = X
    · subst hZ
      rw [if_pos rfl, List.mem_singleton] at hs
      exact .inr (.inl ⟨a, t, Y, hs, hX, hY⟩)
    · rw [if_neg hZ] at hs
      exact (h.new Z s hs).imp (fun hnew => hnew.imp id (fun hcur => hcur.imp id (⟨·, hZ⟩))) id
  · intro Z s hs
    rw [hN Z]
    by_cases hZ : Z = X
    · subst hZ
      rw [hX, Option.some.injEq] at hs
      rw [if_pos rfl]
      exact .inr ⟨a, t, Y, hs.symm, List.mem_singleton_self _, hY⟩
    · rw [if_neg hZ]
      exact h.defined Z s hs

theorem Invariant.weaken (h : Invariant g D E μ named b cur G N)
    (cur' : Symbol → Production → Prop) (hcur : ∀ Z s, cur Z s → s.length = 2 ∨ cur' Z s) :
    Invariant g D E μ named b cur' G N := by
  refine { h with new := fun Z s hs => ?_ }
  exact (h.new Z s hs).imp (fun hnew => hnew.imp id (fun hlen => hlen.elim .inl (hcur Z s))) id

theorem Invariant.spread (h : Invariant g D E μ named b cur G N)
    (E' : Symbol → Production → Prop) (hE : ∀ A r, E A r → E' A r) :
    Invariant g D E' μ named b cur G N := by
  refine { h with origin := fun X s hX => ?_ }
  obtain ⟨hlen, A, r, hr, hs⟩ := h.origin X s hX
  exact ⟨hlen, A, r, hE A r hr, hs⟩

theorem Invariant.get_of_fresh (hg : WellFormed g) (h : Invariant g D E μ named b cur G N)
    {Y : Symbol} (hY : G.totalKind ≤ Y.kind.val) : N.get Y = [] := by
  have hnone : ∀ s, μ Y ≠ some s := by
    intro s hs
    have hlt := (h.fresh Y s hs).2.1
    omega
  refine List.eq_nil_iff_forall_not_mem.mpr (fun s hs => ?_)
  rcases h.new Y s hs with ⟨hμ, -⟩ | ⟨a, t, Z, -, hμ, -⟩ | ⟨-, -, hknown⟩
  · exact hnone s hμ
  · exact hnone _ hμ
  · have horiginal := isOriginal_of_known hg hknown
    have hle := h.totalKind
    rw [IsOriginal] at horiginal
    omega

theorem Invariant.named_le (h : Invariant g D E μ named b cur G N) :
    named.length ≤ (pairs g).length :=
  (List.subperm_of_subset h.named.1 h.named.2.1).length_le

theorem Invariant.setFound (hg : WellFormed g) (h : Invariant g D E μ named b cur G N) {X : Symbol}
    {s : Production} (hX : Heads g μ G.rawProductions X s) (hs : s.length = 2) {N' : SymbolMap}
    (hN : ∀ Z, N'.get Z = if Z = X then [s] else N.get Z) :
    Invariant g D E μ named b cur G N' := by
  refine { h with new := ?_, defined := ?_ }
  · intro Z t ht
    rw [hN Z] at ht
    by_cases hZ : Z = X
    · subst hZ
      rw [if_pos rfl, List.mem_singleton] at ht
      subst ht
      exact hX.elim (fun hX => .inl ⟨hX, .inl hs⟩) (fun hX => .inr (.inr hX))
    · rw [if_neg hZ] at ht
      exact h.new Z t ht
  · intro Z t ht
    rw [hN Z]
    by_cases hZ : Z = X
    · subst hZ
      rcases hX with hX | ⟨-, -, hknown⟩
      · rw [hX, Option.some.injEq] at ht
        simp [ht]
      · exact absurd (isOriginal_of_known hg hknown) (h.not_original ht)
    · rw [if_neg hZ]
      exact h.defined Z t ht

def replaceRule (G : CFGrammar) (head : Symbol) (rule prod : Production) : CFGrammar :=
  (G.eraseProduction head rule).insertProduction head prod

theorem get_replaceRule (head : Symbol) (rule prod : Production) (A : Symbol) :
    (replaceRule G head rule prod).rawProductions.get A =
      if A = head then ((G.rawProductions.get head).erase rule).insert prod
      else G.rawProductions.get A := by
  by_cases hA : A = head <;>
    simp [replaceRule, CFGrammar.eraseProduction, CFGrammar.insertProduction, get_modify, hA]

theorem Invariant.replace (h : Invariant g D E μ named b cur G N) {A f X : Symbol}
    {s : Production} (hP : IsProduction g A (f :: s)) (hs : 2 ≤ s.length)
    (hX : Heads g μ G.rawProductions X s) :
    Invariant g (fun B r => D B r ∨ B = A ∧ r = f :: s) E μ named b cur
      (replaceRule G A (f :: s) [f, X]) N := by
  have hmem : ∀ B r, r ∈ (replaceRule G A (f :: s) [f, X]).rawProductions.get B ↔
      (r ∈ G.rawProductions.get B ∧ ¬ (B = A ∧ r = f :: s)) ∨ B = A ∧ r = [f, X] := by
    intro B r
    rw [get_replaceRule]
    by_cases hB : B = A
    · subst hB
      rw [if_pos rfl, List.mem_insert_iff, (h.nodup B).mem_erase_iff]
      tauto
    · simp [hB]
  have hpair : ∀ Z t, t.length = 2 → t ∈ G.rawProductions.get Z →
      t ∈ (replaceRule G A (f :: s) [f, X]).rawProductions.get Z := by
    intro Z t ht hZ
    refine (hmem Z t).mpr (.inl ⟨hZ, ?_⟩)
    rintro ⟨-, rfl⟩
    simp only [List.length_cons] at ht
    omega
  have hheads : ∀ {Z t}, Heads g μ G.rawProductions Z t →
      Heads g μ (replaceRule G A (f :: s) [f, X]).rawProductions Z t :=
    fun hZ => hZ.mono (fun _ _ hZ => hZ) hpair
  refine { h with nodup := ?_, kept := ?_, raw := ?_, replaced := ?_, new := ?_ }
  · intro B
    rw [get_replaceRule]
    split
    · exact ((h.nodup A).erase _).insert
    · exact h.nodup B
  · intro B r hB hD
    rw [not_or] at hD
    exact (hmem B r).mpr (.inl ⟨h.kept B r hB hD.1, hD.2⟩)
  · intro B r hr
    rcases (hmem B r).mp hr with ⟨hr, hne⟩ | ⟨rfl, rfl⟩
    · rcases h.raw B r hr with ⟨hB, hD⟩ | ⟨f', t, Z, hrt, hB, ht, hZ⟩
      · exact .inl ⟨hB, not_or.mpr ⟨hD, hne⟩⟩
      · exact .inr ⟨f', t, Z, hrt, hB, ht, hheads hZ⟩
    · exact .inr ⟨f, s, X, rfl, hP, hs, hheads hX⟩
  · rintro B r (hD | ⟨rfl, rfl⟩)
    · obtain ⟨hB, f', t, Z, hrt, ht, hr, hZ⟩ := h.replaced B r hD
      exact ⟨hB, f', t, Z, hrt, ht, hpair B _ rfl hr, hheads hZ⟩
    · exact ⟨hP, f, s, X, rfl, hs, (hmem B _).mpr (.inr ⟨rfl, rfl⟩), hheads hX⟩
  · intro Z t ht
    rcases h.new Z t ht with hnew | hlink | ⟨hlen, hraw, hknown⟩
    · exact .inl hnew
    · exact .inr (.inl hlink)
    · exact .inr (.inr ⟨hlen, hpair Z t hlen hraw, hknown⟩)

theorem mem_pairs {A f : Symbol} {s : Production}
    (hP : IsProduction g A (f :: s)) (hs : s.length = 2) (hnone : ∀ X, ¬ IsProduction g X s) :
    s ∈ pairs g := by
  have hA : A ∈ g.rawProductions.keys := by
    by_contra hA
    rw [IsProduction, g.rawProductions.get_absent A hA] at hP
    exact List.not_mem_nil hP
  have hmem : A :: f :: s ∈ (g.rawProductions.keys.flatMap g.rawProductions.get).filter
      (fun r => r.length = 4) :=
    List.mem_filter.mpr ⟨List.mem_flatMap.mpr ⟨A, hA, hP⟩, by simp [hs]⟩
  refine List.mem_filter.mpr ⟨List.mem_dedup.mpr (List.mem_map.mpr ⟨_, hmem, rfl⟩), ?_⟩
  exact decide_eq_true (fun X _ => hnone X)

theorem isOriginal_of_suffix (hg : WellFormed g) {A : Symbol} {r s : Production}
    (hP : IsProduction g A r) (hs : s <:+ r) : ∀ a ∈ s, IsOriginal g a :=
  fun _ ha => isOriginal_of_mem hg hP (hs.subset ha)

theorem Invariant.not_found (hg : WellFormed g) (hb : Binarizable g)
    (h : Invariant g D E μ named b cur G N) {A : Symbol} {r s : Production}
    (hP : IsProduction g A r) (hr : 4 ≤ r.length) (hs : s <:+ r) (hlen : 2 ≤ s.length)
    (hproper : s.length < r.length)
    (hnew : ∀ X, μ X = some s → s.length ≠ 2 ∧ ¬ cur X s) (X : Symbol) :
    s ∉ N.get X ∧ s ∉ G.rawProductions.get X := by
  rw [← not_or]
  intro hX
  have hknown : s.length = 2 → ∀ X, ¬ Known g X s := hb.inner A r s hP hr hs
  rcases h.found (isOriginal_of_suffix hg hP hs) hX with ⟨hμ, hX⟩ | ⟨hs2, -, hX⟩ | ⟨-, hX⟩
  · exact hX.elim (hnew X hμ).1 (hnew X hμ).2
  · exact hknown hs2 X hX
  · rcases Nat.lt_or_ge 2 s.length with hlt | hge
    · obtain ⟨p, hp, hp2⟩ := exists_pair_suffix hlen
      have heq := hb.shared A X r s p hP hX hr hlt (hp.trans hs) hp hp2
      rw [heq.2] at hproper
      exact lt_irrefl _ hproper
    · exact hknown (by omega) X (.production X s hX)

theorem checkHeads_eq_notFound {s : Production}
    (h : ∀ X, s ∉ N.get X ∧ s ∉ G.rawProductions.get X) : checkHeads G N s = notFound := by
  by_contra hne
  exact (mem_of_checkHeads hne).elim (h _).1 (h _).2

/-- The inner loop: every shorter suffix of the rule takes a new symbol. -/
theorem splitLongRun_spec (hg : WellFormed g) (hb : Binarizable g) {A : Symbol} {r : Production}
    (hE : E A r) (hP : IsProduction g A r) (l : Production) (hl : 2 ≤ l.length) (hlr : l <:+ r)
    (hproper : l.length < r.length) (X : Symbol) (hX : μ X = some l) (hN : N.get X = [l])
    (hbig : ∀ Z s, μ Z = some s → s <:+ r → l.length ≤ s.length)
    (h : Invariant g D E μ named (b + (l.length - 2)) (fun Z s => Z = X ∧ s = l) G N) :
    ∃ G' N' μ', splitLongRun G N X l = some (G', N') ∧
      G'.rawProductions = G.rawProductions ∧
      Invariant g D E μ' named b (fun _ _ => False) G' N' := by
  induction l generalizing X μ G N b with
  | nil => simp at hl
  | cons first rest ih =>
      rw [splitLongRun]
      rw [List.length_cons] at hl h hproper
      by_cases hrest : rest.length < 2
      · rw [if_pos hrest]
        have hb' : b + (rest.length + 1 - 2) = b := by omega
        rw [hb'] at h
        refine ⟨G, N, μ, rfl, rfl, h.weaken _ (fun Z s hZ => .inl ?_)⟩
        rw [hZ.2, List.length_cons]
        omega
      · have hsuffix : rest <:+ r := (List.suffix_cons first rest).trans hlr
        have hnone : ∀ Z, rest ∉ N.get Z ∧ rest ∉ G.rawProductions.get Z := by
          refine h.not_found hg hb hP (by omega) hsuffix (by omega) (by omega) (fun Z hZ => ?_)
          have hle := hbig Z rest hZ hsuffix
          rw [List.length_cons] at hle
          omega
        rw [if_neg hrest, if_pos (checkHeads_eq_notFound hnone)]
        have hkinds := h.kinds
        have hnamed := h.named_le
        obtain ⟨Y, htemp, hYkind, hYattr⟩ := exists_fresh rest
          (h.names G.newTerminalSubscript le_rfl (by omega)) (by omega)
        have hXY : X ≠ Y := by
          rintro rfl
          have hlt := (h.fresh X _ hX).2.1
          omega
        have hbudget : b + (rest.length + 1 - 2) = b + (rest.length - 2) + 1 := by omega
        rw [hbudget] at h
        have hnew := h.name hYkind hYattr (by omega) hE hsuffix named rfl
          ⟨h.named.1, h.named.2.1, fun s hs => .inr hs⟩ (fun Z => get_set N Y [rest] Z)
        let N' := (N.modify X
          (fun prods => (prods.erase (first :: rest)).insert [first, Y])).modify Y (·.insert rest)
        have hN' : ∀ Z, N'.get Z = if Z = X then [[first, Y]] else (N.set Y [rest]).get Z := by
          intro Z
          have hempty := h.get_of_fresh hg hYkind.ge
          simp only [N', get_modify, get_set, hN, hempty, hXY.symm, if_false]
          by_cases hZY : Z = Y
          · simp [hZY, hXY.symm]
          · simp [hZY]
        have hlink := hnew.relink (by rw [Function.update_of_ne hXY, hX])
          (Function.update_self ..) hN'
        have hcur := hlink.weaken (fun Z s => Z = Y ∧ s = rest)
          (fun Z s hZ => .inr (hZ.1.resolve_left (fun h => hZ.2 h.1)))
        have hshorter : ∀ Z s, Function.update μ Y (some rest) Z = some s → s <:+ r →
            rest.length ≤ s.length := by
          intro Z s hZ hs
          by_cases hZY : Z = Y
          · rw [hZY, Function.update_self, Option.some.injEq] at hZ
            rw [hZ]
          · rw [Function.update_of_ne hZY] at hZ
            have hle := hbig Z s hZ hs
            rw [List.length_cons] at hle
            omega
        obtain ⟨G', M, μ', hrun, hraw, hinv⟩ := ih (by omega) hsuffix (by omega) Y
          (Function.update_self ..) (by rw [hN' Y, if_neg hXY.symm, get_set_self]) hshorter hcur
        refine ⟨G', M, μ', ?_, hraw, hinv⟩
        have hmem : first :: rest ∈ N.get X := by simp [hN]
        simp only [htemp, if_pos hmem]
        exact hrun

end SVF.CFL.LongRules
