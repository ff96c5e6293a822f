import SVF.AE.States

namespace SVF.AE.Memory

open Intervals States AddressValue AbstractState Util.DefaultMaps

theorem loads_describe (l : AddressValue) (res : AbstractValue) (as : AbstractState) (w : Value) :
    (res.Describes w ∨ ∃ b ∈ l, (as.addrToAbsVal.get (getInternalID b)).Describes w) →
      (l.foldl (fun (res, as) addr =>
        let (val, as) := as.load addr
        (res.join_with val, as)) (res, as)).1.Describes w := by
  induction l generalizing res as with
  | nil => simp
  | cons a l ih =>
      intro h
      rw [List.foldl_cons]
      refine ih _ _ ?_
      rcases h with h | ⟨b, hb, h⟩
      · exact .inl (describes_join_left h)
      · rcases List.mem_cons.mp hb with rfl | hb
        · exact .inl (describes_join_right h)
        · exact .inr ⟨b, hb, by rwa [get_touch]⟩

theorem loadValue_describes {as : AbstractState} {q b : NodeID} {w : Value}
    (hb : b ∈ (as.varToAbsVal.get q).addrs)
    (hw : (as.addrToAbsVal.get (getInternalID b)).Describes w) : (as.loadValue q).1.Describes w :=
  loads_describe _ _ _ w (.inr ⟨b, hb, hw⟩)

theorem store_get (as : AbstractState) (addr k : NodeID) (val : AbstractValue) :
    (as.store addr val).addrToAbsVal.get k =
      if isNullPtr addr = false ∧ k = getInternalID addr then val else as.addrToAbsVal.get k := by
  cases h : isNullPtr addr with
  | true => simp [AbstractState.store, h]
  | false => simp [AbstractState.store, h, get_set]

theorem store_vars (as : AbstractState) (addr : NodeID) (val : AbstractValue) :
    (as.store addr val).varToAbsVal = as.varToAbsVal := by
  unfold AbstractState.store
  split <;> rfl

def Targets (addrs : AddressValue) (k : NodeID) : Prop :=
  ∃ a ∈ addrs, isNullPtr a = false ∧ k = getInternalID a

instance (addrs : AddressValue) (k : NodeID) : Decidable (Targets addrs k) :=
  inferInstanceAs (Decidable (∃ a ∈ addrs, isNullPtr a = false ∧ k = getInternalID a))

theorem stores_get (l : AddressValue) (val : AbstractValue) (as : AbstractState) (k : NodeID) :
    (l.foldl (fun as addr => as.store addr val) as).addrToAbsVal.get k =
      if Targets l k then val else as.addrToAbsVal.get k := by
  induction l generalizing as with
  | nil => simp [Targets]
  | cons a l ih =>
      have hcons : Targets (a :: l) k ↔ (isNullPtr a = false ∧ k = getInternalID a) ∨ Targets l k := by
        simp [Targets]
      rw [List.foldl_cons, ih, store_get]
      by_cases hl : Targets l k
      · rw [if_pos hl, if_pos (hcons.mpr (.inr hl))]
      · by_cases ha : isNullPtr a = false ∧ k = getInternalID a
        · rw [if_neg hl, if_pos ha, if_pos (hcons.mpr (.inl ha))]
        · rw [if_neg hl, if_neg ha, if_neg (fun h => (hcons.mp h).elim ha hl)]

theorem stores_vars (l : AddressValue) (val : AbstractValue) (as : AbstractState) :
    (l.foldl (fun as addr => as.store addr val) as).varToAbsVal = as.varToAbsVal := by
  induction l generalizing as with
  | nil => rfl
  | cons a l ih => rw [List.foldl_cons, ih, store_vars]

theorem storeValue_get (as : AbstractState) (p : NodeID) (val : AbstractValue) (k : NodeID) :
    (as.storeValue p val).addrToAbsVal.get k =
      if Targets (as.varToAbsVal.get p).addrs k then val else as.addrToAbsVal.get k :=
  stores_get _ _ _ _

theorem storeValue_vars (as : AbstractState) (p : NodeID) (val : AbstractValue) (k : NodeID) :
    (as.storeValue p val).varToAbsVal.get k = as.varToAbsVal.get k := by
  rw [storeValue, stores_vars]
  simp [getVar]

def concreteStore (c : ConcreteState) (a : NodeID) (w : Value) : ConcreteState :=
  { c with mem := Function.update c.mem (getInternalID a) (some w) }

theorem concreteStore_self (c : ConcreteState) (a : NodeID) (w : Value) :
    (concreteStore c a w).mem (getInternalID a) = some w := Function.update_self _ _ _

theorem concreteStore_of_ne (c : ConcreteState) {a k : NodeID} (w : Value) (h : k ≠ getInternalID a) :
    (concreteStore c a w).mem k = c.mem k := Function.update_of_ne h _ _

/-- A store through any address but null that the pointer may hold, and any load
after it, are described by what the two transfers compute. -/
def StoreLoadSound (as : AbstractState) (p : NodeID) (val : AbstractValue) : Prop :=
  ∀ c a w, Describes as c → c.vars p = some (.addr a) → isNullPtr a = false → val.Describes w →
    Describes (as.storeValue p val) (concreteStore c a w) ∧
    ∀ q b u, c.vars q = some (.addr b) → (concreteStore c a w).mem (getInternalID b) = some u →
      ((as.storeValue p val).loadValue q).1.Describes u

theorem describes_store {as : AbstractState} {p a : NodeID} {val : AbstractValue} {c : ConcreteState}
    {w : Value} (hc : Describes as c) (ha : a ∈ (as.varToAbsVal.get p).addrs)
    (hnull : isNullPtr a = false) (hw : val.Describes w)
    (hkeep : ∀ b ∈ (as.varToAbsVal.get p).addrs, isNullPtr b = false →
      getInternalID a ≠ getInternalID b → ∀ u, (as.addrToAbsVal.get (getInternalID b)).Describes u →
        val.Describes u) : Describes (as.storeValue p val) (concreteStore c a w) := by
  refine ⟨fun k u hu => ?_, fun k u hu => ?_⟩
  · rw [storeValue_vars]
    exact hc.vars k u hu
  · rw [storeValue_get]
    by_cases hk : k = getInternalID a
    · subst hk
      rw [concreteStore_self] at hu
      rw [if_pos ⟨a, ha, hnull, rfl⟩]
      exact Option.some.inj hu ▸ hw
    · rw [concreteStore_of_ne c w hk] at hu
      split
      · rename_i htarget
        obtain ⟨b, hb, hbnull, rfl⟩ := htarget
        exact hkeep b hb hbnull (fun h => hk h.symm) u (hc.mem _ u hu)
      · exact hc.mem k u hu

theorem describes_of_sound {as : AbstractState} {p a b : NodeID} {val : AbstractValue} {w u : Value}
    (h : StoreLoadSound as p val) (ha : a ∈ (as.varToAbsVal.get p).addrs)
    (hb : b ∈ (as.varToAbsVal.get p).addrs) (hanull : isNullPtr a = false)
    (hbnull : isNullPtr b = false) (hab : getInternalID a ≠ getInternalID b) (hw : val.Describes w)
    (hu : (as.addrToAbsVal.get (getInternalID b)).Describes u) : val.Describes u := by
  let c : ConcreteState := ⟨fun k => if k = p then some (.addr a) else none,
    fun k => if k = getInternalID b then some u else none⟩
  have hc : Describes as c := by
    refine ⟨fun k v hv => ?_, fun k v hv => ?_⟩
    · obtain ⟨rfl, rfl⟩ : k = p ∧ Value.addr a = v := by simpa [c] using hv
      exact ha
    · obtain ⟨rfl, rfl⟩ : k = getInternalID b ∧ u = v := by simpa [c] using hv
      exact hu
  obtain ⟨hdesc, _⟩ := h c a w hc (by simp [c]) hanull hw
  have hold : (concreteStore c a w).mem (getInternalID b) = some u := by
    rw [concreteStore_of_ne c w (fun h => hab h.symm)]
    simp [c]
  have hafter := hdesc.mem _ u hold
  rwa [storeValue_get, if_pos ⟨b, hb, hbnull, rfl⟩] at hafter

def twoTargets : AbstractState :=
  ⟨DefaultMap.empty.set 0#32 ⟨.bottom, [0x7f000005#32, 0x7f000006#32]⟩,
    (DefaultMap.empty.set 5#32 ⟨.ofInt 1, []⟩).set 6#32 ⟨.ofInt 2, []⟩⟩

end SVF.AE.Memory
