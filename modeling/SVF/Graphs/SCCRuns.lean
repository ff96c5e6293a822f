import SVF.Graphs.SCCInvariant

namespace SVF.Graphs.SCCRuns

open SCC SCC.SCCDetection SCCInvariant
open Util.NodeIDs (UINT_MAX)

variable {G : Graph}

/-- What the search has done since the visit of `v` has begun: the nodes `new` are on the stack. -/
structure Grown (G : Graph) (s s' : SCCDetection) (v : NodeID) (new : List NodeID) : Prop where
  I : s.I ≤ s'.I
  visited : ∀ n, s.visited n → s'.visited n
  inSCC : ∀ n, s.inSCC n → s'.inSCC n
  D : ∀ n, s.visited n → s'.D n = s.D n
  fresh : ∀ n, s'.visited n → ¬ s.visited n → s.I < s'.D n ∧ Reach G v n
  rep : ∀ n, s.visited n → n ≠ v → s'.rep n = s.rep n
  SS : s'.SS = new ++ s.SS
  new_fresh : ∀ w ∈ new, ¬ s.visited w

variable {path : List NodeID} {s s' s'' : SCCDetection} {v w : NodeID} {new new' : List NodeID}

theorem Grown.refl : Grown G s s v [] where
  I := le_refl _
  visited _ h := h
  inSCC _ h := h
  D _ _ := rfl
  fresh _ h hn := absurd h hn
  rep _ _ _ := rfl
  SS := rfl
  new_fresh _ h := by simp at h

theorem Grown.child (h : Grown G s s' v new) (hchild : Grown G s' s'' w new')
    (hreach : Reach G v w) (hw : s'.visited w → s'' = s') : Grown G s s'' v (new' ++ new) where
  I := h.I.trans hchild.I
  visited n hn := hchild.visited n (h.visited n hn)
  inSCC n hn := hchild.inSCC n (h.inSCC n hn)
  D n hn := (hchild.D n (h.visited n hn)).trans (h.D n hn)
  fresh n hn hfresh := by
    by_cases hvis : s'.visited n
    · rw [hchild.D n hvis]
      exact h.fresh n hvis hfresh
    · obtain ⟨hlt, hwn⟩ := hchild.fresh n hn hvis
      exact ⟨h.I.trans_lt hlt, hreach.trans hwn⟩
  rep n hn hnv := by
    by_cases hnw : n = w
    · subst hnw
      rw [hw (h.visited n hn)]
      exact h.rep n hn hnv
    · exact (hchild.rep n (h.visited n hn) hnw).trans (h.rep n hn hnv)
  SS := by rw [hchild.SS, h.SS, List.append_assoc]
  new_fresh n hn hvis := by
    rcases List.mem_append.mp hn with hn | hn
    · exact hchild.new_fresh n hn (h.visited n hvis)
    · exact h.new_fresh n hn hvis

theorem Grown.link (h : Grown G s s' v new) (w : NodeID) : Grown G s (s'.link v w) v new := by
  rw [SCCDetection.link]
  exact {
    I := by rw [I_setRep]; exact h.I
    visited := fun n hn => by rw [visited_setRep]; exact h.visited n hn
    inSCC := fun n hn => by rw [inSCC_setRep]; exact h.inSCC n hn
    D := fun n hn => by rw [D_setRep]; exact h.D n hn
    fresh := fun n hn hfresh => by
      rw [visited_setRep] at hn
      rw [D_setRep]
      exact h.fresh n hn hfresh
    rep := fun n hn hnv => by rw [rep_setRep, if_neg hnv]; exact h.rep n hn hnv
    SS := by rw [SS_setRep]; exact h.SS
    new_fresh := h.new_fresh }

/-- What the visit of `v` leaves behind: a complete component, or `v` on the stack with the least
number among the representatives of the nodes above. -/
structure Result (G : Graph) (path : List NodeID) (s s' : SCCDetection) (v : NodeID)
    (new : List NodeID) : Prop where
  inv : Inv G path s'
  grown : Grown G s s' v new
  visited : s'.visited v
  closed : s'.inSCC v → new = []
  low_le : ¬ s'.inSCC v → ∀ w ∈ new, low s' v ≤ low s' w

/-- While the children of `v` are visited, `s` being the state after `v` was entered. -/
structure Visiting (G : Graph) (path : List NodeID) (s s' : SCCDetection) (v : NodeID)
    (new seen : List NodeID) : Prop where
  inv : Inv G (v :: path) s'
  grown : Grown G s s' v new
  low_le : ∀ w ∈ new, low s' v ≤ low s' w
  seen : ∀ m ∈ seen, s'.visited m ∧ (s'.inSCC m ∨ low s' v ≤ s'.D m)

def unvisited (G : Graph) (s : SCCDetection) : Finset NodeID :=
  G.nodes.toFinset.filter fun n => ¬ s.visited n

theorem unvisited_subset (h : ∀ n, s.visited n → s'.visited n) : unvisited G s' ⊆ unvisited G s :=
  fun n hn => by
    rw [unvisited, Finset.mem_filter] at hn ⊢
    exact ⟨hn.1, fun hvis => hn.2 (h n hvis)⟩

theorem card_unvisited_enter (hv : ¬ s.visited v) (hnode : v ∈ G.nodes) :
    (unvisited G (s.enter v)).card < (unvisited G s).card := by
  refine Finset.card_lt_card (Finset.ssubset_iff_subset_ne.mpr
    ⟨unvisited_subset fun n hn => (visited_enter n).mpr (.inr hn), fun heq => ?_⟩)
  have hmem : v ∈ unvisited G s :=
    Finset.mem_filter.mpr ⟨List.mem_toFinset.mpr hnode, hv⟩
  rw [← heq, unvisited, Finset.mem_filter] at hmem
  exact hmem.2 ((visited_enter v).mpr (.inl rfl))

/-- A visited node outside of all components, seen again after another node has been visited. -/
theorem Grown.low_eq (h : Grown G s s' w new) (hinv : Inv G path s) {n : NodeID}
    (hn : s.visited n) (hopen : ¬ s.inSCC n) (hne : n = w → s' = s) : low s' n = low s n := by
  by_cases hnw : n = w
  · rw [hne hnw]
  · rw [low, h.rep n hn hnw]
    exact h.D _ (hinv.rep n hn hopen).1

theorem Visiting.child {seen : List NodeID} (h : Visiting G path s s' v new seen)
    (hv : s.visited v) (hw : w ∈ G.succs v) (hchild : Result G (v :: path) s' s'' w new')
    (hsame : s'.visited w → s'' = s') :
    Visiting G path s (if s''.inSCC w then s'' else s''.link v w) v (new' ++ new) (w :: seen) := by
  have hgrown := h.grown.child hchild.grown (reach_succ hw) hsame
  have hvvis := h.grown.visited v hv
  have hvopen := (h.inv.path v List.mem_cons_self).1
  have hvlow : low s'' v = low s' v :=
    hchild.grown.low_eq h.inv hvvis hvopen fun heq => hsame (heq ▸ hvvis)
  have hnewlow : ∀ u ∈ new, low s'' u = low s' u := by
    intro u hu
    have hmem : u ∈ s'.SS := h.grown.SS ▸ List.mem_append_left s.SS hu
    have huvis := h.inv.visited_stack hmem
    exact hchild.grown.low_eq h.inv huvis (h.inv.stack u hmem) fun heq => hsame (heq ▸ huvis)
  have hseen : ∀ m ∈ seen, s''.visited m ∧ (s''.inSCC m ∨ low s'' v ≤ s''.D m) := by
    intro m hm
    obtain ⟨hvis, hedge⟩ := h.seen m hm
    rw [hvlow, hchild.grown.D m hvis]
    exact ⟨hchild.grown.visited m hvis, hedge.imp_left (hchild.grown.inSCC m)⟩
  by_cases hdone : s''.inSCC w
  · rw [if_pos hdone]
    refine ⟨hchild.inv, hgrown, fun u hu => ?_, fun m hm => ?_⟩
    · rw [hchild.closed hdone, List.nil_append] at hu
      rw [hvlow, hnewlow u hu]
      exact h.low_le u hu
    · rcases List.mem_cons.mp hm with rfl | hm
      · exact ⟨hchild.visited, .inl hdone⟩
      · exact hseen m hm
  · rw [if_neg hdone]
    obtain ⟨hinv, hlink⟩ := hchild.inv.link hchild.visited hdone (reach_succ hw)
    have hlowle : low (s''.link v w) v ≤ low s'' v := hlink ▸ min_le_left _ _
    have hwlow : low (s''.link v w) v ≤ low s'' w := hlink ▸ min_le_right _ _
    have hother : ∀ u, u ≠ v → low (s''.link v w) u = low s'' u := by
      intro u hu
      rw [SCCDetection.link, low_setRep, if_neg hu]
    have hD : (s''.link v w).D = s''.D := D_setRep _ v _
    refine ⟨hinv, hgrown.link w, fun u hu => ?_, fun m hm => ?_⟩
    · have huv : u ≠ v := fun heq => hgrown.new_fresh u hu (heq ▸ hv)
      rw [hother u huv]
      rcases List.mem_append.mp hu with hu | hu
      · exact hwlow.trans (hchild.low_le hdone u hu)
      · exact hlowle.trans (hvlow.trans_le ((h.low_le u hu).trans (hnewlow u hu).ge))
    · rw [SCCDetection.link, visited_setRep, inSCC_setRep, ← SCCDetection.link, hD]
      rcases List.mem_cons.mp hm with rfl | hm
      · refine ⟨hchild.visited, .inr ?_⟩
        exact hwlow.trans (hchild.inv.rep m hchild.visited hdone).2.2.1
      · obtain ⟨hvis, hedge⟩ := hseen m hm
        exact ⟨hvis, hedge.imp_right hlowle.trans⟩

theorem Visiting.leave (h : Visiting G path (s.enter v) s' v new (G.succs v))
    (hinv : Inv G path s) (hv : ¬ s.visited v) :
    ∃ new', Result G path s (s'.leave v) v new' := by
  obtain ⟨hI, hD, hSS, -⟩ := @search_enter s v
  have hpath : v ∉ path := fun hmem => hv (hinv.visited_path hmem)
  have hentered : (s.enter v).visited v := (visited_enter v).mpr (.inl rfl)
  have hkept : ∀ {n : NodeID}, s.visited n → (s.enter v).visited n := fun hn =>
    (visited_enter _).mpr (.inr hn)
  have hDv : s'.D v = s.I + 1 := by rw [h.grown.D v hentered, hD, Function.update_self]
  have hDn : ∀ {n : NodeID}, s.visited n → s'.D n = s.D n := fun hn => by
    rw [h.grown.D _ (hkept hn), D_enter_of_visited hv hn]
  have hle : s.I ≤ s'.I := by
    have hgrown := h.grown.I
    omega
  have hne : ∀ {n : NodeID}, s.visited n → n ≠ v := fun hn heq => hv (heq ▸ hn)
  have hstack : s'.SS = new ++ s.SS := h.grown.SS.trans (congrArg (new ++ ·) hSS)
  have hvis : s'.visited v := h.grown.visited v hentered
  have hopen : ¬ s'.inSCC v := (h.inv.path v List.mem_cons_self).1
  have hfresh : ∀ n, s'.visited n → ¬ s.visited n → s.I < s'.D n ∧ Reach G v n := by
    intro n hn hnot
    by_cases hnv : n = v
    · rw [hnv, hDv]
      exact ⟨Nat.lt_succ_self _, .refl⟩
    · have hnotentered : ¬ (s.enter v).visited n := fun hmem =>
        ((visited_enter n).mp hmem).elim hnv hnot
      obtain ⟨hlt, hreach⟩ := h.grown.fresh n hn hnotentered
      exact ⟨by omega, hreach⟩
  have hrep : ∀ n, s.visited n → s'.rep n = s.rep n := by
    intro n hn
    rw [h.grown.rep n (hkept hn) (hne hn), rep_enter, if_neg (hne hn)]
  by_cases hroot : s'.rep v = v
  · have hc : Complete G path new s.SS s' v := {
      notMem := hpath
      rep := hroot
      SS := hstack
      new := by
        intro w hw
        have hwvis := h.inv.visited_stack (hstack ▸ List.mem_append_left s.SS hw)
        obtain ⟨hlt, hreach⟩ := h.grown.fresh w hwvis (h.grown.new_fresh w hw)
        exact ⟨by omega, h.low_le w hw, hreach⟩
      old := by
        intro w hw
        have hwvis : s.visited w := hw.elim hinv.visited_path hinv.visited_stack
        have hle := hinv.D_le w hwvis
        rw [hDv, hDn hwvis]
        omega
      edge := h.seen }
    have hl := hc.closes
    have hnotmem : ∀ {n : NodeID}, s.visited n → ¬ (n = v ∨ n ∈ new) := fun hn hmem =>
      hmem.elim (hne hn) fun hmem => h.grown.new_fresh _ hmem (hkept hn)
    refine ⟨[], h.inv.close hc, ?_, ?_, fun _ => rfl, fun hnot => ?_⟩
    · exact {
        I := by rw [hl.I]; exact hle
        visited := fun n hn => by rw [hl.visited]; exact h.grown.visited n (hkept hn)
        inSCC := fun n hn => by
          rw [hl.inSCC]
          exact .inl (h.grown.inSCC n ((inSCC_enter n).symm ▸ hn))
        D := fun n hn => by rw [hl.D]; exact hDn hn
        fresh := fun n hn hnot => by
          rw [hl.visited] at hn
          rw [hl.D]
          exact hfresh n hn hnot
        rep := fun n hn _ => by
          have hsame : (s'.leave v).rep n = s'.rep n :=
            congrArg GNodeSCCInfo.rep (hl.info n (hnotmem hn))
          exact hsame.trans (hrep n hn)
        SS := hl.SS
        new_fresh := fun w hw => by simp at hw }
    · rw [hl.visited]
      exact hvis
    · exact absurd ((hl.inSCC v).mpr (.inr (.inl rfl))) hnot
  · rw [SCCDetection.leave, if_neg hroot]
    refine ⟨v :: new, h.inv.push hpath hroot h.seen, ?_, hvis, fun hdone => absurd hdone hopen,
      fun _ w hw => ?_⟩
    · exact {
        I := hle
        visited := fun n hn => h.grown.visited n (hkept hn)
        inSCC := fun n hn => h.grown.inSCC n ((inSCC_enter n).symm ▸ hn)
        D := fun n hn => hDn hn
        fresh := hfresh
        rep := fun n hn _ => hrep n hn
        SS := congrArg (v :: ·) hstack
        new_fresh := fun w hw hwvis => by
          rcases List.mem_cons.mp hw with rfl | hw
          · exact hv hwvis
          · exact h.grown.new_fresh w hw (hkept hwvis) }
    · rcases List.mem_cons.mp hw with rfl | hw
      · exact le_refl _
      · exact h.low_le w hw

theorem children_visiting {depth : ℕ} (hvisit : ∀ s w, Inv G (v :: path) s → ¬ s.visited w →
      w ∈ G.nodes → (unvisited G s).card ≤ depth →
        ∃ s' new, visit G depth w s = some s' ∧ Result G (v :: path) s s' w new)
    (hnode : v ∈ G.nodes) (hv : s.visited v) {seen : List NodeID} (ws : List NodeID)
    (hws : ∀ w ∈ ws, w ∈ G.succs v) (h : Visiting G path s s' v new seen)
    (hdepth : (unvisited G s').card ≤ depth) :
    ∃ s'' new', ws.foldlM (visitChild (visit G depth) v) s' = some s'' ∧
      Visiting G path s s'' v new' (ws.reverse ++ seen) := by
  induction ws generalizing s' new seen with
  | nil => exact ⟨s', new, rfl, h⟩
  | cons w ws ih =>
      have hw := hws w List.mem_cons_self
      have hstep : ∃ t new1, (if s'.visited w then some s' else visit G depth w s') = some t ∧
          Result G (v :: path) s' t w new1 ∧ (s'.visited w → t = s') := by
        by_cases hvis : s'.visited w
        · rw [if_pos hvis]
          exact ⟨s', [], rfl, ⟨h.inv, .refl, hvis, fun _ => rfl, fun _ _ hu => by simp at hu⟩,
            fun _ => rfl⟩
        · rw [if_neg hvis]
          obtain ⟨t, new1, hrun, hresult⟩ :=
            hvisit s' w h.inv hvis (G.closed v hnode w hw) hdepth
          exact ⟨t, new1, hrun, hresult, fun hmem => absurd hmem hvis⟩
      obtain ⟨t, new1, hrun, hresult, hsame⟩ := hstep
      have hnext := h.child hv hw hresult hsame
      have hcard := Finset.card_le_card (unvisited_subset (G := G) hresult.grown.visited)
      have hlink : ∀ n, (if t.inSCC w then t else t.link v w).visited n = t.visited n := by
        intro n
        split
        · rfl
        · rw [link, visited_setRep]
      have hsmaller : (unvisited G (if t.inSCC w then t else t.link v w)).card ≤ depth := by
        refine le_trans (Finset.card_le_card (unvisited_subset fun n hn => ?_)) (hcard.trans hdepth)
        rw [hlink]
        exact hn
      obtain ⟨s'', new', hfold, hvisiting⟩ := ih (fun u hu => hws u (List.mem_cons_of_mem w hu))
        hnext hsmaller
      refine ⟨s'', new', ?_, ?_⟩
      · rw [List.foldlM_cons, visitChild, hrun]
        exact hfold
      · rw [List.reverse_cons, List.append_assoc]
        exact hvisiting

theorem visit_result (depth : ℕ) (path : List NodeID) (s : SCCDetection) (v : NodeID)
    (hinv : Inv G path s) (hv : ¬ s.visited v) (hnode : v ∈ G.nodes)
    (hdepth : (unvisited G s).card ≤ depth) :
    ∃ s' new, visit G depth v s = some s' ∧ Result G path s s' v new := by
  induction depth generalizing path s v with
  | zero =>
      have hlt := card_unvisited_enter hv hnode
      omega
  | succ depth ih =>
      have hlt := card_unvisited_enter hv hnode
      have hstart : Visiting G path (s.enter v) (s.enter v) v [] [] :=
        ⟨hinv.enter hv hnode, .refl, fun _ hw => by simp at hw, fun _ hm => by simp at hm⟩
      obtain ⟨s', new, hfold, hvisiting⟩ := children_visiting (ih (v :: path)) hnode
        ((visited_enter v).mpr (.inl rfl)) (G.succs v) (fun _ hw => hw) hstart (by omega)
      have hseen : Visiting G path (s.enter v) s' v new (G.succs v) :=
        ⟨hvisiting.inv, hvisiting.grown, hvisiting.low_le, fun m hm =>
          hvisiting.seen m (List.mem_append_left [] (List.mem_reverse.mpr hm))⟩
      obtain ⟨new', hresult⟩ := hseen.leave hinv hv
      exact ⟨s'.leave v, new', by rw [visit, hfold]; rfl, hresult⟩

theorem Result.stack_nil (h : Result G [] s s' v new) (hSS : s.SS = []) : s'.SS = [] := by
  by_cases hdone : s'.inSCC v
  · rw [h.grown.SS, h.closed hdone, hSS]
    rfl
  · -- the representative of `v` would have a representative with a smaller number
    obtain ⟨hrep, hopen, -, -⟩ := h.inv.rep v h.visited hdone
    have hmem : s'.rep v ∈ s'.SS :=
      (((h.inv.visited_iff _).mp hrep).resolve_left List.not_mem_nil).resolve_right hopen
    have hnew : s'.rep v ∈ new := by
      rw [h.grown.SS, hSS, List.append_nil] at hmem
      exact hmem
    obtain ⟨hrrep, -, hle, -⟩ := h.inv.rep _ hrep hopen
    have heq : s'.D (s'.rep (s'.rep v)) = s'.D (s'.rep v) :=
      Nat.le_antisymm hle (h.low_le hdone _ hnew)
    exact absurd (h.inv.D_inj _ _ hrrep hrep heq) (h.inv.stack_rep _ hmem)

structure Found (G : Graph) (s : SCCDetection) : Prop where
  inv : Inv G [] s
  SS : s.SS = []
  visited : ∀ n ∈ G.nodes, s.visited n

theorem find_found {depth : ℕ} (hdepth : G.nodes.length ≤ depth) :
    ∃ s, find G depth = some s ∧ Found G s := by
  have hloop : ∀ (ws : List NodeID) (s : SCCDetection), (∀ w ∈ ws, w ∈ G.nodes) → Inv G [] s →
      s.SS = [] → ∃ s', ws.foldlM (fun s node =>
          if s.visited node then some s
          else if s.rep node = UINT_MAX ∨ s.rep node = node then visit G depth node s
          else some s) s = some s' ∧ Inv G [] s' ∧ s'.SS = [] ∧
        (∀ n, s.visited n → s'.visited n) ∧ ∀ w ∈ ws, s'.visited w := by
    intro ws
    induction ws with
    | nil => exact fun s _ hinv hSS => ⟨s, rfl, hinv, hSS, fun _ hn => hn, fun _ hw => by simp at hw⟩
    | cons w ws ih =>
        intro s hws hinv hSS
        have hstep : ∃ t, (if s.visited w then some s
            else if s.rep w = UINT_MAX ∨ s.rep w = w then visit G depth w s else some s) = some t ∧
              Inv G [] t ∧ t.SS = [] ∧ (∀ n, s.visited n → t.visited n) ∧ t.visited w := by
          by_cases hvis : s.visited w
          · rw [if_pos hvis]
            exact ⟨s, rfl, hinv, hSS, fun _ hn => hn, hvis⟩
          · have hrep : s.rep w = UINT_MAX := by
              rw [SCCDetection.rep, hinv.unvisited w hvis]
            have hcard : (unvisited G s).card ≤ depth :=
              (Finset.card_filter_le _ _).trans ((List.toFinset_card_le _).trans hdepth)
            obtain ⟨t, new, hrun, hresult⟩ :=
              visit_result depth [] s w hinv hvis (hws w List.mem_cons_self) hcard
            rw [if_neg hvis, if_pos (.inl hrep)]
            exact ⟨t, hrun, hresult.inv, hresult.stack_nil hSS, hresult.grown.visited,
              hresult.visited⟩
        obtain ⟨t, hrun, htinv, htSS, hkept, hwvis⟩ := hstep
        obtain ⟨s', hfold, hinv', hSS', hkept', hall⟩ :=
          ih t (fun u hu => hws u (List.mem_cons_of_mem w hu)) htinv htSS
        refine ⟨s', ?_, hinv', hSS', fun n hn => hkept' n (hkept n hn), fun u hu => ?_⟩
        · rw [List.foldlM_cons, hrun]
          exact hfold
        · rcases List.mem_cons.mp hu with rfl | hu
          · exact hkept' u hwvis
          · exact hall u hu
  obtain ⟨s, hrun, hinv, hSS, -, hall⟩ := hloop G.nodes {} (fun _ hw => hw) inv_start rfl
  exact ⟨s, hrun, hinv, hSS, hall⟩

theorem Found.inSCC (h : Found G s) {n : NodeID} (hn : n ∈ G.nodes) : s.inSCC n := by
  have hvis := (h.inv.visited_iff n).mp (h.visited n hn)
  rw [h.SS] at hvis
  simpa using hvis

theorem Found.repNode_eq (h : Found G s) {n : NodeID} (hn : n ∈ G.nodes) :
    s.repNode n = s.rep n ∧ s.rep n ∈ G.nodes := by
  have hrep := h.inv.nodes _ (h.inv.visited_inSCC (h.inv.done_rep n (h.inSCC hn)).1)
  refine ⟨if_pos fun heq => ?_, hrep⟩
  exact Nat.lt_irrefl _ (heq ▸ G.lt_of_mem _ hrep)

theorem Found.repNode_eq_iff (h : Found G s) {n m : NodeID} (hn : n ∈ G.nodes) (hm : m ∈ G.nodes) :
    s.repNode n = s.repNode m ↔ Mutual G n m := by
  rw [(h.repNode_eq hn).1, (h.repNode_eq hm).1, ← (h.inv.done_rep n (h.inSCC hn)).2.2 m]
  exact ⟨fun heq => ⟨h.inSCC hm, heq.symm⟩, fun hboth => hboth.2.symm⟩

theorem Found.subNodes_iff (h : Found G s) {n : NodeID} (hn : n ∈ G.nodes) :
    s.repNode n ∈ G.nodes ∧ s.repNode (s.repNode n) = s.repNode n ∧
      ∀ m, m ∈ s.subNodes (s.repNode n) ↔ Mutual G n m := by
  obtain ⟨hrep, hnode⟩ := h.repNode_eq hn
  obtain ⟨hdone, hrr, hmutual⟩ := h.inv.done_rep n (h.inSCC hn)
  rw [hrep, (h.repNode_eq hnode).1]
  refine ⟨hnode, hrr, fun m => ?_⟩
  rw [h.inv.done_sub _ hdone hrr m]
  exact hmutual m

theorem Found.mem_topo (h : Found G s) (r : NodeID) : r ∈ s.T ↔ r ∈ G.nodes ∧ s.repNode r = r := by
  rw [h.inv.topo_mem]
  constructor
  · rintro ⟨hdone, hrr⟩
    have hnode := h.inv.nodes r (h.inv.visited_inSCC hdone)
    exact ⟨hnode, (h.repNode_eq hnode).1.trans hrr⟩
  · rintro ⟨hnode, hrr⟩
    exact ⟨h.inSCC hnode, (h.repNode_eq hnode).1.symm.trans hrr⟩

theorem Found.idxOf_lt (h : Found G s) {a b : NodeID} (ha : a ∈ s.T) (hb : b ∈ s.T) (hne : a ≠ b)
    (hreach : Reach G a b) : s.T.idxOf a < s.T.idxOf b := by
  by_contra hge
  have hlt : s.T.idxOf b < s.T.idxOf a := by
    refine Nat.lt_of_le_of_ne (Nat.le_of_not_lt hge) fun heq => hne ?_
    exact ((List.idxOf_inj ha).mp heq.symm)
  have hpair := List.pairwise_iff_getElem.mp h.inv.topo_order _ _
    (List.idxOf_lt_length_of_mem hb) (List.idxOf_lt_length_of_mem ha) hlt
  rw [List.getElem_idxOf, List.getElem_idxOf] at hpair
  exact hpair hreach

/-- The search ends. Then two nodes have the same representative if each reaches the other and
only then, the nodes of a representative are its component, and the topological stack has every
representative once, above all representatives that it reaches. -/
theorem find_components (G : Graph) (depth : ℕ) (hdepth : G.nodes.length ≤ depth) :
    ∃ s, find G depth = some s ∧
      (∀ n ∈ G.nodes, ∀ m ∈ G.nodes, s.repNode n = s.repNode m ↔ Mutual G n m) ∧
      (∀ n ∈ G.nodes, s.repNode n ∈ G.nodes ∧ s.repNode (s.repNode n) = s.repNode n ∧
        ∀ m, m ∈ s.subNodes (s.repNode n) ↔ Mutual G n m) ∧
      s.T.Nodup ∧ (∀ r, r ∈ s.T ↔ r ∈ G.nodes ∧ s.repNode r = r) ∧
      ∀ a ∈ s.T, ∀ b ∈ s.T, a ≠ b → Reach G a b → s.T.idxOf a < s.T.idxOf b := by
  obtain ⟨s, hrun, h⟩ := find_found hdepth
  exact ⟨s, hrun, fun n hn m hm => h.repNode_eq_iff hn hm, fun n hn => h.subNodes_iff hn,
    h.inv.topo_nodup, h.mem_topo, fun a ha b hb => h.idxOf_lt ha hb⟩

def exampleGraph : Graph where
  nodes := [0, 1, 2]
  succs n := if n = 0 then [1] else if n = 1 then [0, 2] else []
  lt_of_mem := by decide
  closed := by decide

theorem find_components_example : ∃ s, find exampleGraph 3 = some s ∧
    s.repNode 0 = s.repNode 1 ∧ ∀ r, r ∈ s.T ↔ r ∈ exampleGraph.nodes ∧ s.repNode r = r := by
  obtain ⟨s, hrun, hrep, -, -, htopo, -⟩ := find_components exampleGraph 3 (by decide)
  have h01 : Reach exampleGraph 0 1 := reach_succ (by decide)
  have h10 : Reach exampleGraph 1 0 := reach_succ (by decide)
  exact ⟨s, hrun, (hrep 0 (by decide) 1 (by decide)).mpr ⟨h01, h10⟩, htopo⟩

end SVF.Graphs.SCCRuns
