import SVF.CFL.LongRules

namespace SVF.CFL.BinarizedLanguage

open Util.DefaultMaps Util.Languages CFGNormalizer Binarization LongRules

variable {g : CFGrammar} {D : Symbol → Production → Prop} {μ : Naming} {named : List Production}
  {b : ℕ} {G : CFGrammar} {N : SymbolMap}

def Invariant (g : CFGrammar) (D : Symbol → Production → Prop) (μ : Naming)
    (named : List Production) (b : ℕ) (G : CFGrammar) (N : SymbolMap) : Prop :=
  LongRules.Invariant g D D μ named b (fun _ _ => False) G N

theorem splitLongRun_pair {s : Production} (hs : s.length = 2) (X : Symbol) :
    splitLongRun G N X s = some (G, N) := by
  obtain ⟨a, c, rfl⟩ := List.length_eq_two.mp hs
  rfl

theorem mem_keys_of_isProduction {A : Symbol} {r : Production} (h : IsProduction g A r) :
    A ∈ g.rawProductions.keys := by
  by_contra hA
  rw [IsProduction, g.rawProductions.get_absent A hA] at h
  exact List.not_mem_nil h

theorem ne_notFound_of_isProduction (hg : WellFormed g) {A : Symbol} {r : Production}
    (h : IsProduction g A r) : A ≠ notFound :=
  hg.keys A (mem_keys_of_isProduction h)

theorem ne_notFound_of_known (hg : WellFormed g) {A : Symbol} {s : Production}
    (h : Known g A s) : A ≠ notFound := by
  cases h with
  | production _ _ h => exact ne_notFound_of_isProduction hg h
  | reused _ _ _ _ h _ _ => exact ne_notFound_of_isProduction hg h

theorem Invariant.long (h : Invariant g D μ named b G N) {A : Symbol} {r : Production}
    (hD : D A r) : 3 ≤ r.length := by
  obtain ⟨-, f, s, X, rfl, hs, -⟩ := h.replaced A r hD
  rw [List.length_cons]
  omega

theorem mem_erase_raw {A : Symbol} {r s : Production} (hrs : s ≠ r) (X : Symbol) :
    s ∈ (G.eraseProduction A r).rawProductions.get X ↔ s ∈ G.rawProductions.get X := by
  rw [CFGrammar.eraseProduction, get_modify]
  by_cases hX : X = A
  · rw [if_pos hX, List.mem_erase_of_ne hrs, hX]
  · rw [if_neg hX]

theorem Invariant.heads_of_found (hg : WellFormed g) (hb : Binarizable g)
    (h : Invariant g D μ named b G N) {A f X : Symbol} {s : Production}
    (hP : IsProduction g A (f :: s)) (hs : 2 ≤ s.length)
    (hX : s ∈ N.get X ∨ s ∈ G.rawProductions.get X) :
    s.length = 2 ∧ Heads g μ G.rawProductions X s := by
  have horiginal := isOriginal_of_suffix hg hP (List.suffix_cons f s)
  rcases h.found horiginal hX with ⟨hμ, hlen⟩ | hknown | ⟨hmem, hX⟩
  · exact ⟨hlen.resolve_right id, .inl hμ⟩
  · exact ⟨hknown.1, .inr hknown⟩
  · rcases Nat.lt_or_ge 2 s.length with hlt | hge
    · obtain ⟨p, hp, hp2⟩ := exists_pair_suffix hs
      have heq := hb.shared A X (f :: s) s p hP hX (by rw [List.length_cons]; omega) hlt
        (hp.trans (List.suffix_cons f s)) hp hp2
      have hlength := congrArg List.length heq.2
      simp at hlength
    · have hlen : s.length = 2 := by omega
      exact ⟨hlen, .inr ⟨hlen, hmem, .production X s hX⟩⟩

/-- A pair without a head has not been named, and no production is just this pair. -/
theorem Invariant.pair_not_named (hg : WellFormed g) (h : Invariant g D μ named b G N)
    {A f : Symbol} {s : Production} (hP : IsProduction g A (f :: s)) (hs : s.length = 2)
    (hnone : checkHeads (G.eraseProduction A (f :: s)) N s = notFound) :
    s ∉ named ∧ s ∈ pairs g := by
  have hne : s ≠ f :: s := fun heq => by simpa using congrArg List.length heq
  have hfree := fun X => not_mem_of_checkHeads hnone (fun Y hY => ?_) (fun Y hY => ?_) X
  · constructor
    · intro hnamed
      obtain ⟨X, hX⟩ := h.named.2.2 s hnamed
      rcases h.defined X s hX with hmem | ⟨a, t, Y, rfl, -, hY⟩
      · exact (hfree X).1 hmem
      · have hle := (h.origin Y t hY).1
        rw [List.length_cons] at hs
        omega
    · refine mem_pairs hP hs (fun X hX => (hfree X).2 ?_)
      rw [mem_erase_raw hne]
      refine h.kept X s hX (fun hD => ?_)
      have hle := h.long hD
      omega
  · rcases h.new Y s hY with ⟨hμ, -⟩ | ⟨a, t, Z, -, hμ, -⟩ | ⟨-, -, hknown⟩
    · rintro rfl
      exact absurd (h.fresh _ _ hμ).2.2 (by decide)
    · rintro rfl
      exact absurd (h.fresh _ _ hμ).2.2 (by decide)
    · exact ne_notFound_of_known hg hknown
  · rw [mem_erase_raw hne] at hY
    rcases h.raw Y s hY with hPY | ⟨f', t, X, -, hPY, -⟩
    · exact ne_notFound_of_isProduction hg hPY.1
    · exact ne_notFound_of_isProduction hg hPY

def withRule (D : Symbol → Production → Prop) (A : Symbol) (r : Production) :
    Symbol → Production → Prop := fun B r' => D B r' ∨ B = A ∧ r' = r

theorem binRule_found {A f X : Symbol} {s : Production} (hs : s.length = 2)
    (hX : checkHeads (G.eraseProduction A (f :: s)) N s = X) (hne : X ≠ notFound) :
    binRule A (G, N) (f :: s) = some (replaceRule G A (f :: s) [f, X], N.set X [s]) := by
  rw [binRule, if_neg (by omega)]
  simp only [hX, if_neg hne]
  exact splitLongRun_pair hs X

theorem binRule_fresh {A f Y : Symbol} {s : Production} (hs : 2 ≤ s.length)
    (hnone : checkHeads (G.eraseProduction A (f :: s)) N s = notFound)
    (htemp : insertTempSym (G.eraseProduction A (f :: s)) s =
      (withSymbol (G.eraseProduction A (f :: s)), Y)) :
    binRule A (G, N) (f :: s) =
      splitLongRun (replaceRule (withSymbol G) A (f :: s) [f, Y]) (N.set Y [s]) Y s := by
  rw [binRule, if_neg (by omega)]
  simp only [hnone, if_true, htemp]
  rfl

theorem Invariant.binRule_found (hg : WellFormed g) (h : Invariant g D μ named b G N)
    {A f X : Symbol} {s : Production} (hP : IsProduction g A (f :: s)) (hs : s.length = 2)
    (hX : Heads g μ G.rawProductions X s) :
    Invariant g (withRule D A (f :: s)) μ named b (replaceRule G A (f :: s) [f, X])
      (N.set X [s]) := by
  have hset := LongRules.Invariant.setFound hg h hX hs (fun Z => get_set N X [s] Z)
  have hreplace := hset.replace hP (by omega) hX
  exact hreplace.spread _ (fun _ _ hD => .inl hD)

/-- The invariant once the first symbol for the rest of a rule is there. -/
theorem Invariant.binRule_named (h : Invariant g D μ named (b + c) G N) {A f Y : Symbol}
    {s : Production} (hP : IsProduction g A (f :: s)) (hs : 2 ≤ s.length)
    (hkind : Y.kind.val = G.totalKind) (hattr : Y.attr = 0)
    (named' : List Production) (hc : named'.length + c = named.length + 1)
    (hnamed : named'.Nodup ∧ named' ⊆ pairs g ∧ ∀ t ∈ named', t = s ∨ t ∈ named) :
    LongRules.Invariant g (withRule D A (f :: s)) (withRule D A (f :: s))
      (Function.update μ Y (some s)) named' b (fun Z t => Z = Y ∧ t = s)
      (replaceRule (withSymbol G) A (f :: s) [f, Y]) (N.set Y [s]) := by
  have hspread := LongRules.Invariant.spread h (withRule D A (f :: s)) (fun _ _ hD => .inl hD)
  have hname := hspread.name hkind hattr hs (.inr ⟨rfl, rfl⟩) (List.suffix_cons f s) named' hc
    hnamed (fun Z => get_set N Y [s] Z)
  have hreplace := hname.replace hP hs (.inl (Function.update_self ..))
  exact hreplace.weaken _ (fun Z t hZ => .inr (hZ.resolve_left id))

theorem get_replaceRule_of_ne {A B : Symbol} {r prod : Production} (hB : B ≠ A) :
    (replaceRule G A r prod).rawProductions.get B = G.rawProductions.get B := by
  rw [get_replaceRule, if_neg hB]

def replacedWith (D : Symbol → Production → Prop) (A : Symbol) (rules : List Production) :
    Symbol → Production → Prop := fun B r => D B r ∨ B = A ∧ r ∈ rules ∧ 3 ≤ r.length

theorem replacedWith_long {A : Symbol} {r : Production} (hr : 3 ≤ r.length) :
    replacedWith D A [r] = withRule D A r := by
  funext B r'
  simp only [replacedWith, withRule, List.mem_singleton, eq_iff_iff]
  constructor
  · rintro (hD | ⟨hB, hr', -⟩)
    · exact .inl hD
    · exact .inr ⟨hB, hr'⟩
  · rintro (hD | ⟨hB, rfl⟩)
    · exact .inl hD
    · exact .inr ⟨hB, rfl, hr⟩

theorem replacedWith_short {A : Symbol} {r : Production} (hr : r.length < 3) :
    replacedWith D A [r] = D := by
  funext B r'
  simp only [replacedWith, List.mem_singleton, eq_iff_iff]
  constructor
  · rintro (hD | ⟨-, rfl, hlen⟩)
    · exact hD
    · omega
  · exact .inl

/-- The loop goes on, in a state that has replaced `D`; only rules of `heads` changed. -/
def Advances (g : CFGrammar) (heads : List Symbol) (D : Symbol → Production → Prop) (b : ℕ)
    (G : CFGrammar) (result : Option (CFGrammar × SymbolMap)) : Prop :=
  ∃ G' N' μ named, result = some (G', N') ∧
    (∀ B, B ∉ heads → G'.rawProductions.get B = G.rawProductions.get B) ∧
    Invariant g D μ named b G' N'

theorem binRule_of_found (hg : WellFormed g) (hb : Binarizable g) {A f : Symbol} {s : Production}
    (h : Invariant g D μ named (b + need (f :: s)) G N) (hP : IsProduction g A (f :: s))
    (hs : 2 ≤ s.length) (hfound : checkHeads (G.eraseProduction A (f :: s)) N s ≠ notFound) :
    Advances g [A] (withRule D A (f :: s)) b G (binRule A (G, N) (f :: s)) := by
  have hne : s ≠ f :: s := fun heq => by simpa using congrArg List.length heq
  have hmem := mem_of_checkHeads hfound
  rw [mem_erase_raw hne] at hmem
  obtain ⟨hs2, hX⟩ := h.heads_of_found hg hb hP hs hmem
  have hneed : b + need (f :: s) = b := by simp [need, hs2]
  rw [hneed] at h
  exact ⟨_, _, μ, named, binRule_found hs2 rfl hfound,
    fun B hB => get_replaceRule_of_ne (List.ne_of_not_mem_cons hB), h.binRule_found hg hP hs2 hX⟩

theorem binRule_of_pair (hg : WellFormed g) {A f : Symbol} {s : Production}
    (h : Invariant g D μ named (b + need (f :: s)) G N) (hP : IsProduction g A (f :: s))
    (hs : s.length = 2) (hnone : checkHeads (G.eraseProduction A (f :: s)) N s = notFound) :
    Advances g [A] (withRule D A (f :: s)) b G (binRule A (G, N) (f :: s)) := by
  have hneed : b + need (f :: s) = b := by simp [need, hs]
  rw [hneed] at h
  have hkinds := h.kinds
  obtain ⟨hnot, hpair⟩ := h.pair_not_named hg hP hs hnone
  have hnodup : (s :: named).Nodup := List.nodup_cons.mpr ⟨hnot, h.named.1⟩
  have hsub : s :: named ⊆ pairs g := List.cons_subset.mpr ⟨hpair, h.named.2.1⟩
  have hle := (List.subperm_of_subset hnodup hsub).length_le
  rw [List.length_cons] at hle
  have hlt : G.totalKind < 2 ^ 8 := by omega
  obtain ⟨Y, htemp, hkind, hattr⟩ := exists_fresh (G := G.eraseProduction A (f :: s)) s
    (h.names G.newTerminalSubscript le_rfl (by omega)) hlt
  have hinv := h.binRule_named (c := 0) hP (by omega) hkind hattr (s :: named) rfl
    ⟨hnodup, hsub, fun t ht => List.mem_cons.mp ht⟩
  have hrun := (binRule_fresh (by omega) hnone htemp).trans (splitLongRun_pair hs Y)
  refine ⟨_, _, _, s :: named, hrun, fun B hB => ?_, hinv.weaken _ fun Z t hZ => .inl (hZ.2 ▸ hs)⟩
  exact get_replaceRule_of_ne (List.ne_of_not_mem_cons hB)

theorem binRule_of_long (hg : WellFormed g) (hb : Binarizable g) {A f : Symbol} {s : Production}
    (h : Invariant g D μ named (b + need (f :: s)) G N) (hP : IsProduction g A (f :: s))
    (hD : ¬ D A (f :: s)) (hs : 2 < s.length)
    (hnone : checkHeads (G.eraseProduction A (f :: s)) N s = notFound) :
    Advances g [A] (withRule D A (f :: s)) b G (binRule A (G, N) (f :: s)) := by
  have hneed : b + need (f :: s) = b + (s.length - 2) + 1 := by
    rw [need, List.length_cons, if_neg (by omega)]
    omega
  rw [hneed] at h
  have hkinds := h.kinds
  have hle := LongRules.Invariant.named_le h
  have hlt : G.totalKind < 2 ^ 8 := by omega
  obtain ⟨Y, htemp, hkind, hattr⟩ := exists_fresh (G := G.eraseProduction A (f :: s)) s
    (h.names G.newTerminalSubscript le_rfl (by omega)) hlt
  have hinv := h.binRule_named (c := 1) hP (by omega) hkind hattr named rfl
    ⟨h.named.1, h.named.2.1, fun t ht => .inr ht⟩
  -- a suffix named before belongs to another rule, which shares no pair with this one
  have hfirst : ∀ Z t, Function.update μ Y (some s) Z = some t → t <:+ f :: s →
      s.length ≤ t.length := by
    intro Z t hZ ht
    by_cases hZY : Z = Y
    · rw [hZY, Function.update_self, Option.some.injEq] at hZ
      rw [hZ]
    · rw [Function.update_of_ne hZY] at hZ
      obtain ⟨hlen, B, r, hDB, htr⟩ := h.origin Z t hZ
      obtain ⟨p, hp, hp2⟩ := exists_pair_suffix hlen
      have heq := hb.shared A B (f :: s) r p hP (h.replaced B r hDB).1
        (by rw [List.length_cons]; omega) (h.long hDB) (hp.trans ht) (hp.trans htr) hp2
      rw [heq.1, heq.2] at hD
      exact absurd hDB hD
  obtain ⟨G', N', μ', hrun, hraw, hinv⟩ := splitLongRun_spec hg hb
    (E := withRule D A (f :: s)) (.inr ⟨rfl, rfl⟩) hP s (by omega) (List.suffix_cons f s)
    (by rw [List.length_cons]; omega) Y (Function.update_self ..) (get_set_self N Y [s])
    hfirst hinv
  refine ⟨G', N', μ', named, (binRule_fresh (by omega) hnone htemp).trans hrun,
    fun B hB => ?_, hinv⟩
  rw [hraw, get_replaceRule_of_ne (List.ne_of_not_mem_cons hB)]
  rfl

theorem binRule_advances (hg : WellFormed g) (hb : Binarizable g) {A : Symbol} {r : Production}
    (h : Invariant g D μ named (b + need r) G N) (hP : IsProduction g A r) (hD : ¬ D A r) :
    Advances g [A] (replacedWith D A [r]) b G (binRule A (G, N) r) := by
  by_cases hr : r.length < 3
  · have hrun : binRule A (G, N) r = some (G, N) := by
      cases r with
      | nil => rfl
      | cons f s =>
          rw [List.length_cons] at hr
          rw [binRule, if_pos (by omega)]
    rw [replacedWith_short hr]
    rw [need, if_pos (by omega)] at h
    exact ⟨G, N, μ, named, hrun, fun _ _ => rfl, h⟩
  · rw [replacedWith_long (by omega)]
    cases r with
    | nil => simp at hr
    | cons f s =>
        rw [List.length_cons] at hr
        by_cases hnone : checkHeads (G.eraseProduction A (f :: s)) N s = notFound
        · rcases Nat.lt_or_ge 2 s.length with hs | hs
          · exact binRule_of_long hg hb h hP hD hs hnone
          · exact binRule_of_pair hg h hP (by omega) hnone
        · exact binRule_of_found hg hb h hP (by omega) hnone

theorem foldlM_binRule (hg : WellFormed g) (hb : Binarizable g) {A : Symbol}
    (rules : List Production) (hrules : rules.Nodup) (hP : ∀ r ∈ rules, IsProduction g A r)
    (hD : ∀ r ∈ rules, ¬ D A r) (h : Invariant g D μ named (b + (rules.map need).sum) G N) :
    Advances g [A] (replacedWith D A rules) b G (rules.foldlM (binRule A) (G, N)) := by
  induction rules generalizing D μ named G N with
  | nil =>
      have hsame : replacedWith D A [] = D := by
        funext B r
        simp [replacedWith]
      rw [hsame]
      exact ⟨G, N, μ, named, rfl, fun _ _ => rfl, h⟩
  | cons r rules ih =>
      obtain ⟨hr, hrules⟩ := List.nodup_cons.mp hrules
      rw [List.map_cons, List.sum_cons, Nat.add_comm (need r), ← Nat.add_assoc] at h
      obtain ⟨G₁, N₁, μ₁, named₁, hrun₁, hframe₁, h₁⟩ := binRule_advances hg hb h
        (hP r List.mem_cons_self) (hD r List.mem_cons_self)
      have hnext : ∀ r' ∈ rules, ¬ replacedWith D A [r] A r' := by
        rintro r' hr' (hDr | ⟨-, hr'', -⟩)
        · exact hD r' (List.mem_cons_of_mem r hr') hDr
        · exact hr (List.mem_singleton.mp hr'' ▸ hr')
      obtain ⟨G₂, N₂, μ₂, named₂, hrun₂, hframe₂, h₂⟩ := ih hrules
        (fun r' hr' => hP r' (List.mem_cons_of_mem r hr')) hnext h₁
      have hsame : replacedWith (replacedWith D A [r]) A rules = replacedWith D A (r :: rules) := by
        funext B r'
        simp only [replacedWith, List.mem_cons, List.not_mem_nil, or_false, eq_iff_iff]
        tauto
      rw [hsame] at h₂
      refine ⟨G₂, N₂, μ₂, named₂, ?_, fun B hB => (hframe₂ B hB).trans (hframe₁ B hB), h₂⟩
      rw [List.foldlM_cons, hrun₁]
      exact hrun₂

theorem foldlM_heads (hg : WellFormed g) (hb : Binarizable g) {R : SymbolMap}
    (hnodup : ∀ A, (R.get A).Nodup) (hR : ∀ A r, r ∈ R.get A → IsProduction g A r)
    (heads : List Symbol) (hheads : heads.Nodup)
    (hG : ∀ A ∈ heads, G.rawProductions.get A = R.get A) (hD : ∀ A ∈ heads, ∀ r, ¬ D A r)
    (h : Invariant g D μ named
      (b + (heads.map (fun A => ((R.get A).map need).sum)).sum) G N) :
    Advances g heads (fun A r => D A r ∨ A ∈ heads ∧ r ∈ R.get A ∧ 3 ≤ r.length) b G
      (heads.foldlM (fun state head =>
        (state.1.rawProductions.get head).foldlM (binRule head) state) (G, N)) := by
  induction heads generalizing D μ named G N with
  | nil =>
      have hsame : (fun A r => D A r ∨ A ∈ [] ∧ r ∈ R.get A ∧ 3 ≤ r.length) = D := by
        funext A r
        simp
      rw [hsame]
      exact ⟨G, N, μ, named, rfl, fun _ _ => rfl, h⟩
  | cons A heads ih =>
      obtain ⟨hA, hheads⟩ := List.nodup_cons.mp hheads
      have hGA : G.rawProductions.get A = R.get A := hG A List.mem_cons_self
      rw [List.map_cons, List.sum_cons, Nat.add_comm (List.sum _), ← Nat.add_assoc] at h
      obtain ⟨G₁, N₁, μ₁, named₁, hrun₁, hframe₁, h₁⟩ := foldlM_binRule hg hb (R.get A) (hnodup A)
        (hR A) (fun r _ => hD A List.mem_cons_self r) h
      have hne : ∀ B ∈ heads, B ∉ [A] := fun B hB hBA => hA (List.mem_singleton.mp hBA ▸ hB)
      obtain ⟨G₂, N₂, μ₂, named₂, hrun₂, hframe₂, h₂⟩ := ih hheads
        (fun B hB => (hframe₁ B (hne B hB)).trans (hG B (List.mem_cons_of_mem A hB)))
        (fun B hB r hDr => hDr.elim (hD B (List.mem_cons_of_mem A hB) r)
          (fun hB' => hne B hB (List.mem_singleton.mpr hB'.1))) h₁
      have hsame : (fun B r => replacedWith D A (R.get A) B r ∨
          B ∈ heads ∧ r ∈ R.get B ∧ 3 ≤ r.length) =
          fun B r => D B r ∨ B ∈ A :: heads ∧ r ∈ R.get B ∧ 3 ≤ r.length := by
        funext B r
        simp only [replacedWith, List.mem_cons, eq_iff_iff]
        constructor
        · rintro ((hDr | ⟨rfl, hr⟩) | ⟨hB, hr⟩)
          · exact .inl hDr
          · exact .inr ⟨.inl rfl, hr⟩
          · exact .inr ⟨.inr hB, hr⟩
        · rintro (hDr | ⟨rfl | hB, hr⟩)
          · exact .inl (.inl hDr)
          · exact .inl (.inr ⟨rfl, hr⟩)
          · exact .inr ⟨hB, hr⟩
      rw [hsame] at h₂
      refine ⟨G₂, N₂, μ₂, named₂, ?_, fun B hB => ?_, h₂⟩
      · rw [List.foldlM_cons]
        simp only [hGA, hrun₁]
        exact hrun₂
      · rw [List.mem_cons, not_or] at hB
        exact (hframe₂ B hB.2).trans (hframe₁ B (fun h => hB.1 (List.mem_singleton.mp h)))

theorem foldl_insertProduction (head : Symbol) (rules : List Production) (G : CFGrammar) :
    (rules.foldl (·.insertProduction head ·) G).terminals = G.terminals ∧
      ∀ A r, r ∈ (rules.foldl (·.insertProduction head ·) G).rawProductions.get A ↔
        r ∈ G.rawProductions.get A ∨ A = head ∧ r ∈ rules := by
  induction rules generalizing G with
  | nil => simp
  | cons rule rules ih =>
      obtain ⟨hterminals, hmem⟩ := ih (G.insertProduction head rule)
      refine ⟨hterminals, fun A r => ?_⟩
      rw [List.foldl_cons, hmem, CFGrammar.insertProduction, get_modify]
      by_cases hA : A = head
      · subst hA
        simp only [if_true, List.mem_insert_iff, List.mem_cons, true_and]
        tauto
      · simp [hA]

theorem foldl_keys_insertProduction (N : SymbolMap) (heads : List Symbol) (G : CFGrammar) :
    (heads.foldl (fun grammar new_head =>
        (N.get new_head).foldl (·.insertProduction new_head ·) grammar) G).terminals =
      G.terminals ∧
      ∀ A r, r ∈ (heads.foldl (fun grammar new_head =>
          (N.get new_head).foldl (·.insertProduction new_head ·) grammar) G).rawProductions.get A ↔
        r ∈ G.rawProductions.get A ∨ A ∈ heads ∧ r ∈ N.get A := by
  induction heads generalizing G with
  | nil => simp
  | cons head heads ih =>
      obtain ⟨hterminals, hmem⟩ := foldl_insertProduction head (N.get head) G
      obtain ⟨hterminals', hmem'⟩ := ih ((N.get head).foldl (·.insertProduction head ·) G)
      refine ⟨hterminals'.trans hterminals, fun A r => ?_⟩
      rw [List.foldl_cons, hmem', hmem, List.mem_cons]
      constructor
      · rintro ((hr | ⟨rfl, hr⟩) | ⟨hA, hr⟩)
        · exact .inl hr
        · exact .inr ⟨.inl rfl, hr⟩
        · exact .inr ⟨.inr hA, hr⟩
      · rintro (hr | ⟨rfl | hA, hr⟩)
        · exact .inl (.inl hr)
        · exact .inl (.inr ⟨rfl, hr⟩)
        · exact .inr ⟨hA, hr⟩

section

def reading (μ : Naming) (X : Symbol) : Production := (μ X).getD [X]

theorem Invariant.reading_original (h : Invariant g D μ named b G N) {X : Symbol}
    (hX : IsOriginal g X) : reading μ X = [X] := by
  cases hm : μ X with
  | none => rw [reading, hm, Option.getD_none]
  | some s => exact absurd hX (h.not_original hm)

theorem Invariant.flatMap_reading (h : Invariant g D μ named b G N) {s : Production}
    (hs : ∀ a ∈ s, IsOriginal g a) : s.flatMap (reading μ) = s := by
  induction s with
  | nil => rfl
  | cons a s ih =>
      rw [List.flatMap_cons, h.reading_original (hs a List.mem_cons_self),
        ih (fun c hc => hs c (List.mem_cons_of_mem a hc))]
      rfl

theorem Invariant.isOriginal_named (hg : WellFormed g) (h : Invariant g D μ named b G N)
    {X : Symbol} {s : Production} (hX : μ X = some s) : ∀ a ∈ s, IsOriginal g a := by
  obtain ⟨-, A, r, hD, hs⟩ := h.origin X s hX
  exact isOriginal_of_suffix hg (h.replaced A r hD).1 hs

theorem isOriginal_known (hg : WellFormed g) {X : Symbol} {s : Production} (h : Known g X s) :
    ∀ a ∈ s, IsOriginal g a := by
  cases h with
  | production _ _ h => exact isOriginal_of_suffix hg h (List.suffix_refl s)
  | reused _ f Y t h _ hY =>
      have hf : IsOriginal g f := isOriginal_of_mem hg h List.mem_cons_self
      simp [hf, isOriginal_of_known hg hY]

theorem generates_of_known (hb : Binarizable g) {X : Symbol} {s : Production} (h : Known g X s)
    {w : List Symbol} (hw : Generates (IsProduction g) (IsTerminal g) s w) :
    Generates (IsProduction g) (IsTerminal g) [X] w := by
  cases h with
  | production _ _ h => exact hw.head h
  | reused _ f Y t h ht hY => exact hb.reuse X f Y t h ht hY w hw

theorem Invariant.translates (hg : WellFormed g) (hb : Binarizable g)
    (h : Invariant g D μ named b G N) {A : Symbol} {r : Production}
    (hr : r ∈ G.rawProductions.get A ∨ r ∈ N.get A) {w : List Symbol}
    (hw : Generates (IsProduction g) (IsTerminal g) (r.flatMap (reading μ)) w) :
    Generates (IsProduction g) (IsTerminal g) (reading μ A) w := by
  rcases hr with hr | hr
  · rcases h.raw A r hr with ⟨hP, -⟩ | ⟨f, s, X, rfl, hP, hs, hX⟩
    · rw [h.flatMap_reading (isOriginal_of_suffix hg hP (List.suffix_refl r))] at hw
      rw [h.reading_original (isOriginal_head hg hP)]
      exact hw.head hP
    · have hf : IsOriginal g f := isOriginal_of_mem hg hP List.mem_cons_self
      rw [h.reading_original (isOriginal_head hg hP)]
      rw [List.flatMap_cons, h.reading_original hf, List.flatMap_singleton] at hw
      rcases hX with hX | ⟨hlen, -, hknown⟩
      · rw [reading, hX] at hw
        exact hw.head hP
      · rw [h.reading_original (isOriginal_of_known hg hknown)] at hw
        exact hb.reuse A f X s hP hlen hknown w hw
  · rcases h.new A r hr with ⟨hA, -⟩ | ⟨a, t, Y, rfl, hA, hY⟩ | ⟨-, -, hknown⟩
    · rw [h.flatMap_reading (h.isOriginal_named hg hA)] at hw
      rwa [reading, hA]
    · have ha := h.isOriginal_named hg hA a List.mem_cons_self
      rw [List.flatMap_cons, h.reading_original ha, List.flatMap_singleton, reading, hY] at hw
      rwa [reading, hA]
    · rw [h.flatMap_reading (isOriginal_known hg hknown)] at hw
      rw [h.reading_original (isOriginal_of_known hg hknown)]
      exact generates_of_known hb hknown hw

variable {Q : Symbol → Production → Prop} {T : Symbol → Prop}

theorem Invariant.heads_generate (h : Invariant g D μ named b G N)
    (hQ : ∀ A r, r ∈ G.rawProductions.get A ∨ r ∈ N.get A → Q A r) {X : Symbol} {s : Production}
    (hX : Heads g μ G.rawProductions X s) {w : List Symbol} (hw : Generates Q T s w) :
    Generates Q T [X] w := by
  rcases hX with hX | ⟨-, hmem, -⟩
  · induction s generalizing X w with
    | nil =>
        have hle := (h.origin X [] hX).1
        simp at hle
    | cons a s ih =>
        rcases h.defined X _ hX with hmem | ⟨c, t, Y, heq, hmem, hY⟩
        · exact hw.head (hQ X _ (.inr hmem))
        · cases heq
          obtain ⟨u, v, hu, hv, rfl⟩ := generates_cons hw
          exact (hu.append (ih hv hY)).head (hQ X _ (.inr hmem))
  · exact hw.head (hQ X s (.inl hmem))

theorem Invariant.simulates (h : Invariant g D μ named b G N)
    (hQ : ∀ A r, r ∈ G.rawProductions.get A ∨ r ∈ N.get A → Q A r) {A : Symbol} {r : Production}
    (hP : IsProduction g A r) {w : List Symbol} (hw : Generates Q T r w) :
    Generates Q T [A] w := by
  by_cases hD : D A r
  · obtain ⟨-, f, s, X, rfl, -, hmem, hX⟩ := h.replaced A r hD
    obtain ⟨u, v, hu, hv, rfl⟩ := generates_cons hw
    exact (hu.append (h.heads_generate hQ hX hv)).head (hQ A _ (.inl hmem))
  · exact hw.head (hQ A r (.inl (h.kept A r hP hD)))

theorem Invariant.generates_iff (hg : WellFormed g) (hb : Binarizable g)
    (h : Invariant g D μ named b G N)
    (hQ : ∀ A r, Q A r ↔ r ∈ G.rawProductions.get A ∨ r ∈ N.get A) {A : Symbol}
    (hA : IsOriginal g A) (w : List Symbol) :
    Generates Q (IsTerminal g) [A] w ↔ Generates (IsProduction g) (IsTerminal g) [A] w := by
  constructor
  · intro hw
    have hT : ∀ a, IsTerminal g a → reading μ a = [a] := by
      rintro a ⟨p, hp, hpa⟩
      have hlt := hg.terminals p hp
      rw [hpa] at hlt
      exact h.reading_original hlt
    have htranslated := hw.translate hT
      (fun B r hB u hu => h.translates hg hb ((hQ B r).mp hB) hu)
    rwa [List.flatMap_singleton, h.reading_original hA] at htranslated
  · exact fun hw => hw.simulate (fun B r hB u hu => h.simulates (fun C t => (hQ C t).mpr) hB hu)

theorem Invariant.length_le_two (h : Invariant g D μ named b G N)
    (hlong : ∀ A r, IsProduction g A r → ¬ D A r → r.length < 3) {A : Symbol} {r : Production}
    (hr : r ∈ G.rawProductions.get A ∨ r ∈ N.get A) : r.length ≤ 2 := by
  rcases hr with hr | hr
  · rcases h.raw A r hr with ⟨hP, hD⟩ | ⟨f, s, X, rfl, -⟩
    · exact Nat.le_of_lt_succ (hlong A r hP hD)
    · exact le_rfl
  · rcases h.new A r hr with ⟨-, hlen⟩ | ⟨a, t, Y, rfl, -⟩ | ⟨hlen, -⟩
    · exact (hlen.resolve_right id).le
    · exact le_rfl
    · exact hlen.le

end

theorem invariant_start (hg : WellFormed g) (hb : Binarizable g) {R : SymbolMap}
    (hR : ∀ A, (R.get A).Perm ((g.rawProductions.get A).map List.tail)) :
    Invariant g (fun _ _ => False) (fun _ => none) [] (longNeed g) (withProductions g R) .empty where
  nodup A := by
    refine (hR A).nodup_iff.mpr (List.Nodup.map_on (fun r hr r' hr' heq => ?_) (hg.nodup A))
    obtain ⟨w, rfl⟩ := hg.head A r hr
    obtain ⟨w', rfl⟩ := hg.head A r' hr'
    exact congrArg (A :: ·) heq
  kept A r hP _ := (mem_of_perm_tail hg (hR A)).mpr hP
  raw A r hr := .inl ⟨(mem_of_perm_tail hg (hR A)).mp hr, id⟩
  replaced _ _ h := h.elim
  fresh _ _ h := by cases h
  origin _ _ h := by cases h
  new X s hs := absurd hs List.not_mem_nil
  defined _ _ h := by cases h
  terminals := rfl
  totalKind := le_rfl
  kinds := by
    have hkinds := hb.kinds
    rw [newSymbols] at hkinds
    change g.totalKind + longNeed g + (pairs g).length ≤ 2 ^ 8 + 0
    omega
  names n hn hlt := hb.names n hn (by
    rw [newSymbols]
    rw [List.length_nil] at hlt
    exact Nat.lt_of_lt_of_le hlt (Nat.add_assoc _ _ _).le)
  named := ⟨List.nodup_nil, List.nil_subset _, fun s hs => absurd hs List.not_mem_nil⟩

def Binarizes (g : CFGrammar) : Prop :=
  ∃ g', ebnf_bin g = some g' ∧ (∀ A r, HasProduction g' A r → r.length ≤ 2) ∧
    ∀ A, IsOriginal g A → ∀ w, Generates (HasProduction g') (IsTerminal g') [A] w ↔
      Generates (IsProduction g) (IsTerminal g) [A] w

def plain (kind : Fin (2 ^ 8)) : Symbol := ⟨kind, 0, 0⟩

def threeSymbols : CFGrammar where
  terminals := [("a", 0), ("b", 1), ("c", 2)]
  nonterminals := [("A", 3)]
  EBNFSigns := []
  totalKind := 4
  rawProductions := DefaultMap.empty.set (plain 3) [[plain 3, plain 0, plain 1, plain 2]]
  newTerminalSubscript := 0

theorem get_threeSymbols (A : Symbol) : threeSymbols.rawProductions.get A =
    if A = plain 3 then [[plain 3, plain 0, plain 1, plain 2]] else [] := rfl

theorem threeSymbols_productions {A : Symbol} {r : Production}
    (hr : r ∈ threeSymbols.rawProductions.get A) :
    A = plain 3 ∧ r = [plain 3, plain 0, plain 1, plain 2] := by
  rw [get_threeSymbols] at hr
  split at hr
  · rename_i hA
    exact ⟨hA, List.mem_singleton.mp hr⟩
  · exact absurd hr List.not_mem_nil

theorem isProduction_threeSymbols {A : Symbol} {r : Production}
    (h : IsProduction threeSymbols A r) : A = plain 3 ∧ r = [plain 0, plain 1, plain 2] := by
  obtain ⟨hA, hr⟩ := threeSymbols_productions h
  exact ⟨hA, (List.cons.inj hr).2⟩

theorem wellFormed_threeSymbols : WellFormed threeSymbols where
  head A r hr := by
    obtain ⟨rfl, rfl⟩ := threeSymbols_productions hr
    exact ⟨_, rfl⟩
  symbols A r hr := by
    obtain ⟨rfl, rfl⟩ := threeSymbols_productions hr
    unfold IsOriginal
    decide
  nodup A := by
    rw [get_threeSymbols]
    split
    · exact List.nodup_singleton _
    · exact List.nodup_nil
  terminals := by decide
  keys := by decide

theorem binarizable_threeSymbols : Binarizable threeSymbols where
  leftRecursion A w hA := by
    obtain ⟨rfl, heq⟩ := isProduction_threeSymbols hA
    exact absurd heq (by simp [plain])
  kinds := by decide
  names n _ hlt := by
    have hn : n = 0 := Nat.lt_one_iff.mp hlt
    subst hn
    decide
  inner A r s hP hr := by
    obtain ⟨-, rfl⟩ := isProduction_threeSymbols hP
    simp at hr
  shared A B r r' s hP _ hr := by
    obtain ⟨-, rfl⟩ := isProduction_threeSymbols hP
    simp at hr
  reuse A f X s hP _ hX := by
    obtain ⟨-, heq⟩ := isProduction_threeSymbols hP
    cases heq
    cases hX with
    | production _ _ h =>
        obtain ⟨-, heq⟩ := isProduction_threeSymbols h
        simp at heq
    | reused _ _ Y t h _ _ =>
        obtain ⟨-, heq⟩ := isProduction_threeSymbols h
        simp [plain] at heq

/-- `A -> a b c d` and `B -> c d`: the rest `b c d` is never cut. -/
def innerPair : CFGrammar where
  terminals := [("a", 0), ("b", 1), ("c", 2), ("d", 3)]
  nonterminals := [("A", 4), ("B", 5)]
  EBNFSigns := []
  totalKind := 6
  rawProductions := (DefaultMap.empty.set (plain 4)
    [[plain 4, plain 0, plain 1, plain 2, plain 3]]).set (plain 5) [[plain 5, plain 2, plain 3]]
  newTerminalSubscript := 0

theorem get_innerPair (A : Symbol) : innerPair.rawProductions.get A =
    if A = plain 5 then [[plain 5, plain 2, plain 3]]
    else if A = plain 4 then [[plain 4, plain 0, plain 1, plain 2, plain 3]] else [] := rfl

theorem innerPair_productions {A : Symbol} {r : Production}
    (hr : r ∈ innerPair.rawProductions.get A) :
    A = plain 5 ∧ r = [plain 5, plain 2, plain 3] ∨
      A = plain 4 ∧ r = [plain 4, plain 0, plain 1, plain 2, plain 3] := by
  rw [get_innerPair] at hr
  split at hr
  · rename_i hA
    exact .inl ⟨hA, List.mem_singleton.mp hr⟩
  · split at hr
    · rename_i hA
      exact .inr ⟨hA, List.mem_singleton.mp hr⟩
    · exact absurd hr List.not_mem_nil

theorem wellFormed_innerPair : WellFormed innerPair where
  head A r hr := by
    obtain ⟨rfl, rfl⟩ | ⟨rfl, rfl⟩ := innerPair_productions hr
    · exact ⟨_, rfl⟩
    · exact ⟨_, rfl⟩
  symbols A r hr := by
    unfold IsOriginal
    obtain ⟨rfl, rfl⟩ | ⟨rfl, rfl⟩ := innerPair_productions hr
    · decide
    · decide
  nodup A := by
    rw [get_innerPair]
    split
    · exact List.nodup_singleton _
    · split
      · exact List.nodup_singleton _
      · exact List.nodup_nil
  terminals := by decide
  keys := by decide

theorem ebnf_bin_innerPair :
    (ebnf_bin innerPair).any
      (fun g' => [plain 1, plain 2, plain 3] ∈ g'.rawProductions.get (plain 6)) = true := by
  decide +kernel

end SVF.CFL.BinarizedLanguage
