import Mathlib.Algebra.Order.BigOperators.Group.List
import SVF.CFL.CFGNormalizer
import SVF.Util.Folds
import SVF.Util.Loops
import SVF.Util.WorkLists

namespace SVF.CFL.FilledProductions

open Util.Folds Util.Loops Util.WorkLists Util.DefaultMaps CFGNormalizer

abbrev VariableAttribute := Fin (2 ^ 8)

/-- The attributes of all kinds, which `fillAttribute` gives to each variable. -/
def nodeSet (kindToAttrsMap : DefaultMap ℕ (List ℕ)) : List ℕ :=
  kindToAttrsMap.keys.foldl (fun nodeSet kind =>
    (kindToAttrsMap.get kind).foldl (fun nodeSet attri => nodeSet.insert attri) nodeSet) []

/-- The first variable attribute; 0 is no variable. -/
def currentVariableAttribute (prod : Production) : VariableAttribute :=
  prod.foldl (fun current symbol => if current = 0 then symbol.variableAttribute else current) 0

def fillSymbol (current : VariableAttribute) (attri : ℕ) (symbol : Symbol) : Symbol :=
  if symbol.variableAttribute = current then
    { symbol with attr := Fin.ofNat (2 ^ 16) attri, variableAttribute := 0 }
  else symbol

structure Filling where
  worklist : WorkList Production
  normalProds : Productions

def fillOne (currentProduction : Production) (current : VariableAttribute) (s : Filling) (attri : ℕ) : Filling :=
  let fillingProduction := currentProduction.map (fillSymbol current attri)
  if fillingProduction.any fun symbol => symbol.variableAttribute ≠ 0 then
    { s with worklist := (s.worklist.push fillingProduction).2 }
  else { s with normalProds := s.normalProds.insert fillingProduction }

/-- `CFLFIFOWorkList` does what `FIFOWorkList` does. -/
def fillStep (nodeSet : List ℕ) (s : Filling) : Option Filling := do
  let (currentProduction, worklist) ← FIFOWorkList.pop s.worklist
  let current := currentVariableAttribute currentProduction
  if current = 0 then some ⟨worklist, s.normalProds.insert currentProduction⟩
  else some (nodeSet.foldl (fillOne currentProduction current) ⟨worklist, s.normalProds⟩)

def fillFuel (prod : Production) (nodeSet : List ℕ) : ℕ := (nodeSet.length + 1) ^ prod.length

def getFilledProductions (prod : Production) (nodeSet : List ℕ) : Option Productions :=
  (whileLoop (fun s => !s.worklist.empty) (fillStep nodeSet) (fillFuel prod nodeSet)
    ⟨(WorkList.push ⟨[], ∅⟩ prod).2, []⟩).map (·.normalProds)

def substitute (sigma : VariableAttribute → ℕ) (symbol : Symbol) : Fin (2 ^ 8) × ℕ :=
  (symbol.kind, if symbol.variableAttribute = 0 then symbol.attr else sigma symbol.variableAttribute)

def Exact (prod : Production) (kindToAttrsMap : DefaultMap ℕ (List ℕ)) : Prop :=
  ∃ normalProds, getFilledProductions prod (nodeSet kindToAttrsMap) = some normalProds ∧
    (∀ p ∈ normalProds, ∀ symbol ∈ p, symbol.variableAttribute = 0) ∧
    ∀ q, q ∈ normalProds.map (fun p => p.map fun symbol => (symbol.kind, symbol.attr.val)) ↔
      ∃ sigma, (∀ symbol ∈ prod, symbol.variableAttribute ≠ 0 →
        ∃ kind ∈ kindToAttrsMap.keys, sigma symbol.variableAttribute ∈ kindToAttrsMap.get kind) ∧
        q = prod.map (substitute sigma)

section

variable {attrs : List ℕ} {p q : Production} {current : VariableAttribute}

theorem mem_nodeSet (kindToAttrsMap : DefaultMap ℕ (List ℕ)) (a : ℕ) :
    a ∈ nodeSet kindToAttrsMap ↔ ∃ kind ∈ kindToAttrsMap.keys, a ∈ kindToAttrsMap.get kind := by
  rw [nodeSet, foldl_collects (M := fun a s => a ∈ s) (P := fun kind a => a ∈ kindToAttrsMap.get kind)]
  · exact or_iff_right List.not_mem_nil
  · intro kind _ s a
    rw [foldl_collects (M := fun a s => a ∈ s) (P := fun b a => a = b)]
    · simp
    · intro b _ s a
      rw [List.mem_insert_iff, or_comm]

def instantiate (sigma : VariableAttribute → ℕ) (symbol : Symbol) : Symbol :=
  if symbol.variableAttribute = 0 then symbol
  else { symbol with attr := Fin.ofNat (2 ^ 16) (sigma symbol.variableAttribute), variableAttribute := 0 }

def Instance (attrs : List ℕ) (p q : Production) : Prop :=
  ∃ sigma : VariableAttribute → ℕ, (∀ symbol ∈ p, symbol.variableAttribute ≠ 0 → sigma symbol.variableAttribute ∈ attrs) ∧
    q = p.map (instantiate sigma)

theorem current_spec (p : Production) : currentVariableAttribute p = 0 ∧ (∀ symbol ∈ p, symbol.variableAttribute = 0) ∨
    currentVariableAttribute p ≠ 0 ∧ ∃ symbol ∈ p, symbol.variableAttribute = currentVariableAttribute p := by
  have hkeep : ∀ (p : Production) (c : VariableAttribute), c ≠ 0 → p.foldl (fun current symbol =>
      if current = 0 then symbol.variableAttribute else current) c = c := by
    intro p
    induction p with
    | nil => exact fun c _ => rfl
    | cons symbol p ih =>
        intro c hc
        rw [List.foldl_cons, if_neg hc]
        exact ih c hc
  induction p with
  | nil => exact .inl ⟨rfl, fun _ h => absurd h List.not_mem_nil⟩
  | cons symbol p ih =>
      by_cases hzero : symbol.variableAttribute = 0
      · have hcons : currentVariableAttribute (symbol :: p) = currentVariableAttribute p := by
          rw [currentVariableAttribute, List.foldl_cons, if_pos rfl, hzero]
          rfl
        rw [hcons, List.forall_mem_cons, and_iff_right hzero, List.exists_mem_cons_iff]
        exact ih.imp id fun h => ⟨h.1, .inr h.2⟩
      · have hcons : currentVariableAttribute (symbol :: p) = symbol.variableAttribute := by
          rw [currentVariableAttribute, List.foldl_cons, if_pos rfl]
          exact hkeep p _ hzero
        rw [hcons]
        exact .inr ⟨hzero, symbol, List.mem_cons_self, rfl⟩

theorem instance_of_filled (h : ∀ symbol ∈ p, symbol.variableAttribute = 0) : Instance attrs p q ↔ q = p := by
  have hmap : ∀ sigma, p.map (instantiate sigma) = p := by
    intro sigma
    refine (List.map_congr_left fun symbol hsymbol => ?_).trans (List.map_id p)
    rw [instantiate, if_pos (h symbol hsymbol)]
    rfl
  constructor
  · rintro ⟨sigma, -, rfl⟩
    exact hmap sigma
  · rintro rfl
    exact ⟨fun _ => 0, fun symbol hsymbol hne => absurd (h symbol hsymbol) hne, (hmap _).symm⟩

theorem fillSymbol_of_ne {symbol : Symbol} (h : symbol.variableAttribute ≠ current) (a : ℕ) :
    fillSymbol current a symbol = symbol := if_neg h

theorem instantiate_fillSymbol (hne : current ≠ 0) (sigma : VariableAttribute → ℕ) (symbol : Symbol) :
    instantiate sigma (fillSymbol current (sigma current) symbol) = instantiate sigma symbol := by
  by_cases hcurrent : symbol.variableAttribute = current
  · rw [fillSymbol, if_pos hcurrent, instantiate, if_pos rfl, instantiate, hcurrent, if_neg hne]
  · rw [fillSymbol_of_ne hcurrent]

theorem instance_fill (hne : current ≠ 0) (hcurrent : ∃ symbol ∈ p, symbol.variableAttribute = current) :
    Instance attrs p q ↔ ∃ a ∈ attrs, Instance attrs (p.map (fillSymbol current a)) q := by
  constructor
  · rintro ⟨sigma, hsigma, rfl⟩
    obtain ⟨symbol, hsymbol, hva⟩ := hcurrent
    have hmem : sigma current ∈ attrs := hva ▸ hsigma symbol hsymbol (hva ▸ hne)
    refine ⟨sigma current, hmem, sigma, ?_, ?_⟩
    · intro s hs hzero
      obtain ⟨t, ht, rfl⟩ := List.mem_map.mp hs
      by_cases htc : t.variableAttribute = current
      · rw [fillSymbol, if_pos htc] at hzero
        exact absurd rfl hzero
      · rw [fillSymbol_of_ne htc] at hzero ⊢
        exact hsigma t ht hzero
    · rw [List.map_map]
      exact List.map_congr_left fun t _ => (instantiate_fillSymbol hne sigma t).symm
  · rintro ⟨a, ha, sigma, hsigma, rfl⟩
    refine ⟨Function.update sigma current a, ?_, ?_⟩
    · intro t ht hzero
      by_cases htc : t.variableAttribute = current
      · rw [htc, Function.update_self]
        exact ha
      · rw [Function.update_of_ne htc]
        have hfill := hsigma (fillSymbol current a t) (List.mem_map_of_mem ht)
        rw [fillSymbol_of_ne htc] at hfill
        exact hfill hzero
    · rw [List.map_map]
      apply List.map_congr_left
      intro t _
      by_cases htc : t.variableAttribute = current
      · have hself : a = Function.update sigma current a current := (Function.update_self current a sigma).symm
        rw [← instantiate_fillSymbol hne, ← hself, Function.comp_apply, fillSymbol, if_pos htc]
        rfl
      · rw [Function.comp_apply, fillSymbol_of_ne htc, instantiate, instantiate, Function.update_of_ne htc]

end

section

variable {attrs : List ℕ} {prod p q : Production} {s : Filling}

def Pending (attrs : List ℕ) (s : Filling) (q : Production) : Prop :=
  q ∈ s.normalProds ∨ ∃ w ∈ s.worklist.data_list, Instance attrs w q

def weight (n : ℕ) (p : Production) : ℕ := (n + 1) ^ p.countP fun symbol => symbol.variableAttribute ≠ 0

def measure (n : ℕ) (s : Filling) : ℕ := (s.worklist.data_list.map (weight n)).sum

theorem pending_insert (h : ∀ symbol ∈ p, symbol.variableAttribute = 0) (worklist : WorkList Production)
    (normalProds : Productions) : Pending attrs ⟨worklist, normalProds.insert p⟩ q ↔
      Pending attrs ⟨worklist, normalProds⟩ q ∨ Instance attrs p q := by
  rw [Pending, Pending, instance_of_filled h, List.mem_insert_iff]
  dsimp only
  rw [or_assoc, or_comm]

theorem fillOne_spec (attrs : List ℕ) (n : ℕ) (current : VariableAttribute) (attri : ℕ) (hs : s.worklist.Inv) :
    (fillOne p current s attri).worklist.Inv ∧
      (Pending attrs (fillOne p current s attri) q ↔
        Pending attrs s q ∨ Instance attrs (p.map (fillSymbol current attri)) q) ∧
      measure n (fillOne p current s attri) ≤ measure n s + weight n (p.map (fillSymbol current attri)) := by
  rw [fillOne]
  by_cases hany : (p.map (fillSymbol current attri)).any fun symbol => symbol.variableAttribute ≠ 0
  · rw [if_pos hany]
    refine ⟨hs.push _, ?_, ?_⟩
    · rw [Pending, Pending, hs.push_eq]
      dsimp only
      split
      · rename_i hmem
        exact ⟨.inl, fun h => h.elim id fun hq => .inr ⟨_, hmem, hq⟩⟩
      · simp only [List.mem_append, List.mem_singleton, or_and_right, exists_or, exists_eq_left, or_assoc]
    · rw [measure, measure, hs.push_eq]
      dsimp only
      split
      · exact Nat.le_add_right _ _
      · rw [List.map_append, List.sum_append, List.map_singleton, List.sum_singleton]
  · rw [if_neg hany]
    refine ⟨hs, ?_, Nat.le_add_right _ _⟩
    refine pending_insert ?_ s.worklist s.normalProds
    simpa using hany

theorem fillAll_spec (attrs : List ℕ) (n : ℕ) (current : VariableAttribute) (as : List ℕ) (hs : s.worklist.Inv) :
    (as.foldl (fillOne p current) s).worklist.Inv ∧
      (Pending attrs (as.foldl (fillOne p current) s) q ↔
        Pending attrs s q ∨ ∃ a ∈ as, Instance attrs (p.map (fillSymbol current a)) q) ∧
      measure n (as.foldl (fillOne p current) s) ≤
        measure n s + (as.map fun a => weight n (p.map (fillSymbol current a))).sum := by
  induction as generalizing s with
  | nil => exact ⟨hs, by simp, le_rfl⟩
  | cons a as ih =>
      obtain ⟨hinv, hpending, hle⟩ := fillOne_spec (p := p) (q := q) attrs n current a hs
      obtain ⟨hinv', hpending', hle'⟩ := ih hinv
      refine ⟨hinv', ?_, ?_⟩
      · rw [List.foldl_cons, hpending', hpending, List.exists_mem_cons_iff, or_assoc]
      · rw [List.foldl_cons, List.map_cons, List.sum_cons]
        omega

theorem countP_fill_lt {current : VariableAttribute} (hne : current ≠ 0)
    (hcurrent : ∃ symbol ∈ p, symbol.variableAttribute = current) (a : ℕ) :
    (p.map (fillSymbol current a)).countP (fun symbol => symbol.variableAttribute ≠ 0) <
      p.countP fun symbol => symbol.variableAttribute ≠ 0 := by
  have hle : ∀ symbol : Symbol, (fillSymbol current a symbol).variableAttribute ≠ 0 → symbol.variableAttribute ≠ 0 := by
    intro symbol h hzero
    rw [fillSymbol_of_ne (hzero ▸ hne.symm)] at h
    exact h hzero
  rw [List.countP_map]
  obtain ⟨symbol, hsymbol, rfl⟩ := hcurrent
  obtain ⟨l, r, rfl⟩ := List.append_of_mem hsymbol
  have hmono : ∀ l : List Symbol, l.countP ((fun symbol => symbol.variableAttribute ≠ 0) ∘ fillSymbol _ a) ≤
      l.countP fun symbol => symbol.variableAttribute ≠ 0 :=
    fun l => List.countP_mono_left fun t _ ht => by simpa using hle t (by simpa using ht)
  rw [List.countP_append, List.countP_append, List.countP_cons_of_neg (by simp [fillSymbol]),
    List.countP_cons_of_pos (by simpa using hne)]
  have hl := hmono l
  have hr := hmono r
  omega

theorem weights_lt (attrs : List ℕ) {current : VariableAttribute} (hne : current ≠ 0)
    (hcurrent : ∃ symbol ∈ p, symbol.variableAttribute = current) :
    (attrs.map fun a => weight attrs.length (p.map (fillSymbol current a))).sum < weight attrs.length p := by
  obtain ⟨v, hv⟩ : ∃ v, p.countP (fun symbol => symbol.variableAttribute ≠ 0) = v + 1 :=
    ⟨_, (Nat.succ_pred_eq_of_pos (Nat.zero_lt_of_lt (countP_fill_lt hne hcurrent 0))).symm⟩
  calc (attrs.map fun a => weight attrs.length (p.map (fillSymbol current a))).sum
      ≤ (attrs.map fun a => weight attrs.length (p.map (fillSymbol current a))).length •
          (attrs.length + 1) ^ v := by
        apply List.sum_le_card_nsmul
        intro w hw
        obtain ⟨a, -, rfl⟩ := List.mem_map.mp hw
        have hlt := countP_fill_lt hne hcurrent a
        exact Nat.pow_le_pow_right (Nat.succ_pos _) (by omega)
    _ = attrs.length * (attrs.length + 1) ^ v := by
        rw [List.length_map]
        rfl
    _ < (attrs.length + 1) * (attrs.length + 1) ^ v :=
        Nat.mul_lt_mul_of_pos_right (Nat.lt_succ_self _) (Nat.pow_pos (Nat.succ_pos _))
    _ = weight attrs.length p := by rw [weight, hv, pow_succ, Nat.mul_comm]

theorem fillStep_spec (attrs : List ℕ) (hs : s.worklist.Inv) (hguard : s.worklist.empty = false) :
    ∃ s', fillStep attrs s = some s' ∧ s'.worklist.Inv ∧ (∀ q, Pending attrs s' q ↔ Pending attrs s q) ∧
      measure attrs.length s' < measure attrs.length s := by
  obtain ⟨⟨data_list, data_set⟩, normalProds⟩ := s
  cases data_list with
  | nil => contradiction
  | cons p data_list =>
      have hrest : (⟨⟨data_list, data_set.erase p⟩, normalProds⟩ : Filling).worklist.Inv := (fifo_pop hs).2 _ rfl
      have hmeasure : measure attrs.length ⟨⟨p :: data_list, data_set⟩, normalProds⟩ =
          weight attrs.length p + measure attrs.length ⟨⟨data_list, data_set.erase p⟩, normalProds⟩ := by
        rw [measure, measure, List.map_cons, List.sum_cons]
      have hpending : ∀ q, Pending attrs ⟨⟨p :: data_list, data_set⟩, normalProds⟩ q ↔
          Pending attrs ⟨⟨data_list, data_set.erase p⟩, normalProds⟩ q ∨ Instance attrs p q := by
        intro q
        rw [Pending, Pending]
        dsimp only
        rw [List.exists_mem_cons_iff, or_assoc]
        exact or_congr_right or_comm
      rw [hmeasure]
      simp only [hpending]
      rcases current_spec p with ⟨hzero, hall⟩ | ⟨hne, hcurrent⟩
      · refine ⟨⟨⟨data_list, data_set.erase p⟩, normalProds.insert p⟩, ?_, hrest, fun q => ?_, ?_⟩
        · simp [fillStep, FIFOWorkList.pop, hzero]
        · exact pending_insert hall _ _
        · exact Nat.lt_add_of_pos_left (Nat.pow_pos (Nat.succ_pos _))
      · refine ⟨attrs.foldl (fillOne p (currentVariableAttribute p)) ⟨⟨data_list, data_set.erase p⟩, normalProds⟩,
          ?_, ?_, fun q => ?_, ?_⟩
        · simp [fillStep, FIFOWorkList.pop, hne]
        · exact (fillAll_spec (q := p) attrs 0 _ attrs hrest).1
        · rw [(fillAll_spec attrs 0 _ attrs hrest).2.1, ← instance_fill hne hcurrent]
        · have hle := (fillAll_spec (q := p) (p := p) attrs attrs.length (currentVariableAttribute p) attrs
            hrest).2.2
          have hlt := weights_lt attrs hne hcurrent
          omega

theorem mem_getFilledProductions (attrs : List ℕ) (prod : Production) :
    ∃ normalProds, getFilledProductions prod attrs = some normalProds ∧ ∀ q, q ∈ normalProds ↔ Instance attrs prod q := by
  have hinv : (WorkList.push ⟨[], ∅⟩ prod).2.Inv := inv_empty.push prod
  have hstart : (WorkList.push ⟨[], ∅⟩ prod).2 = ⟨[prod], {prod}⟩ := by
    rw [inv_empty.push_eq]
    simp
  have hfuel : measure attrs.length ⟨(WorkList.push ⟨[], ∅⟩ prod).2, []⟩ ≤ fillFuel prod attrs := by
    rw [hstart, measure, List.map_singleton, List.sum_singleton]
    exact Nat.pow_le_pow_right (Nat.succ_pos _) List.countP_le_length
  have hround : ∀ s : Filling, (s.worklist.Inv ∧ ∀ q, Pending attrs s q ↔ Instance attrs prod q) →
      (!s.worklist.empty) = true → ∃ s', fillStep attrs s = some s' ∧
        (s'.worklist.Inv ∧ ∀ q, Pending attrs s' q ↔ Instance attrs prod q) ∧
        measure attrs.length s' < measure attrs.length s := by
    intro s hs hg
    obtain ⟨s', hstep, hinv', hkeep, hlt⟩ := fillStep_spec attrs hs.1 (by simpa using hg)
    exact ⟨s', hstep, ⟨hinv', fun q => (hkeep q).trans (hs.2 q)⟩, hlt⟩
  obtain ⟨s, hs, ⟨-, hpending⟩, hguard⟩ := whileLoop_terminates (fun s : Filling => !s.worklist.empty)
    (I := fun s => s.worklist.Inv ∧ ∀ q, Pending attrs s q ↔ Instance attrs prod q) (m := measure attrs.length)
    hround ⟨hinv, fun q => by rw [hstart]; simp [Pending]⟩ hfuel
  refine ⟨s.normalProds, by rw [getFilledProductions, hs, Option.map_some], fun q => ?_⟩
  have hempty : s.worklist.data_list = [] := by
    simpa [WorkList.empty] using hguard
  rw [← hpending, Pending, hempty]
  simp

end

theorem substitute_instantiate {sigma : VariableAttribute → ℕ} {symbol : Symbol}
    (h : symbol.variableAttribute ≠ 0 → sigma symbol.variableAttribute < 2 ^ 16) :
    ((instantiate sigma symbol).kind, (instantiate sigma symbol).attr.val) = substitute sigma symbol := by
  rw [instantiate, substitute]
  split
  · rfl
  · rename_i hne
    rw [Fin.val_ofNat, Nat.mod_eq_of_lt (h hne)]

/-- A rule with variables is filled with the attributes as their field holds them. -/
theorem exact_iff (prod : Production) (kindToAttrsMap : DefaultMap ℕ (List ℕ)) : Exact prod kindToAttrsMap ↔
    (∀ symbol ∈ prod, symbol.variableAttribute = 0) ∨
      ∀ kind ∈ kindToAttrsMap.keys, ∀ a ∈ kindToAttrsMap.get kind, a < 2 ^ 16 := by
  obtain ⟨normalProds, hrun, hmem⟩ := mem_getFilledProductions (nodeSet kindToAttrsMap) prod
  constructor
  · rintro ⟨normalProds', hrun', -, hexact⟩
    rw [or_iff_not_imp_left]
    intro hvar kind hkind a ha
    push Not at hvar
    obtain ⟨symbol, hsymbol, hne⟩ := hvar
    have hin := (hexact (prod.map (substitute fun _ => a))).mpr ⟨fun _ => a, fun _ _ _ => ⟨kind, hkind, ha⟩, rfl⟩
    obtain ⟨p, -, hp⟩ := List.mem_map.mp hin
    have hown : (symbol.kind, a) ∈ prod.map (substitute fun _ => a) :=
      List.mem_map.mpr ⟨symbol, hsymbol, by rw [substitute, if_neg hne]⟩
    rw [← hp] at hown
    obtain ⟨t, -, ht⟩ := List.mem_map.mp hown
    rw [Prod.mk.injEq] at ht
    exact ht.2 ▸ t.attr.isLt
  · intro h
    have hsigma : ∀ sigma : VariableAttribute → ℕ, (∀ symbol ∈ prod, symbol.variableAttribute ≠ 0 →
        sigma symbol.variableAttribute ∈ nodeSet kindToAttrsMap) →
        (prod.map (instantiate sigma)).map (fun symbol => (symbol.kind, symbol.attr.val)) =
          prod.map (substitute sigma) := by
      intro sigma hsigma
      rw [List.map_map]
      refine List.map_congr_left fun symbol hsymbol => substitute_instantiate fun hne => ?_
      obtain ⟨kind, hkind, ha⟩ := (mem_nodeSet kindToAttrsMap _).mp (hsigma symbol hsymbol hne)
      exact (h.resolve_left fun hall => hne (hall symbol hsymbol)) kind hkind _ ha
    refine ⟨normalProds, hrun, ?_, fun q => ?_⟩
    · intro p hp symbol hsymbol
      obtain ⟨sigma, -, rfl⟩ := (hmem p).mp hp
      obtain ⟨t, -, rfl⟩ := List.mem_map.mp hsymbol
      rw [instantiate]
      split
      · assumption
      · rfl
    · simp only [← mem_nodeSet]
      constructor
      · intro hq
        obtain ⟨p, hp, rfl⟩ := List.mem_map.mp hq
        obtain ⟨sigma, hin, rfl⟩ := (hmem p).mp hp
        exact ⟨sigma, hin, hsigma sigma hin⟩
      · rintro ⟨sigma, hin, rfl⟩
        exact List.mem_map.mpr ⟨_, (hmem _).mpr ⟨sigma, hin, rfl⟩, hsigma sigma hin⟩

def large : DefaultMap ℕ (List ℕ) := DefaultMap.empty.set 1 [2 ^ 16]

theorem filled_attribute_cut : ∃ prod kindToAttrsMap,
    getFilledProductions prod (nodeSet kindToAttrsMap) = some [[⟨1, 0, 0⟩]] ∧ ¬ Exact prod kindToAttrsMap := by
  have hrun : getFilledProductions [⟨1, 0, 105⟩] (nodeSet large) = some [[⟨1, 0, 0⟩]] := by decide
  refine ⟨[⟨1, 0, 105⟩], large, hrun, ?_⟩
  rintro ⟨normalProds, hrun', -, hexact⟩
  rw [hrun] at hrun'
  cases hrun'
  have hin := (hexact [(1, 2 ^ 16)]).mpr ⟨fun _ => 2 ^ 16, ?_, by decide⟩
  · revert hin
    decide
  · intro symbol _ _
    exact ⟨1, List.mem_singleton_self 1, List.mem_singleton_self _⟩

end SVF.CFL.FilledProductions
