import Mathlib.Data.Finset.Card
import SVF.WPA.FootprintInvariant

namespace SVF.WPA.FootprintRuns

open Relation Graphs.ConsG Graphs.ValueFlowGraph FootprintSCC FootprintSCC.SCC FootprintInvariant

variable {vfs : Versioning} {o : NodeID}

/-- What the search has done since the visit of `v` has begun: the nodes `new` are on the stack. -/
structure Grown (vfs : Versioning) (o : NodeID) (s s' : SCC) (v : NodeID) (new : List NodeID) : Prop where
  index : s.index ≤ s'.index
  visited : ∀ n, Visited s n → Visited s' n
  done : ∀ n, Done s n → Done s' n
  ind : ∀ n, Visited s n → ind s' n = ind s n
  fresh : ∀ n, Visited s' n → ¬ Visited s n → s.index ≤ FootprintInvariant.ind s' n ∧ Reach vfs o v n
  low : ∀ n, Visited s n → n ≠ v → low s' n = low s n
  stack : s'.stack = new ++ s.stack
  new_fresh : ∀ w ∈ new, ¬ Visited s w
  foot : s.footprint ⊆ s'.footprint

variable {path : List NodeID} {s s' s'' : SCC} {v w : NodeID} {new new' : List NodeID}

theorem Grown.refl : Grown vfs o s s v [] where
  index := le_refl _
  visited _ h := h
  done _ h := h
  ind _ _ := rfl
  fresh _ h hn := absurd h hn
  low _ _ _ := rfl
  stack := rfl
  new_fresh _ h := absurd h List.not_mem_nil
  foot := List.Subset.refl _

theorem Grown.child (h : Grown vfs o s s' v new) (hchild : Grown vfs o s' s'' w new')
    (hreach : Reach vfs o v w) (hw : ¬ Visited s' w) : Grown vfs o s s'' v (new' ++ new) where
  index := h.index.trans hchild.index
  visited n hn := hchild.visited n (h.visited n hn)
  done n hn := hchild.done n (h.done n hn)
  ind n hn := (hchild.ind n (h.visited n hn)).trans (h.ind n hn)
  fresh n hn hfresh := by
    by_cases hvis : Visited s' n
    · rw [hchild.ind n hvis]
      exact h.fresh n hvis hfresh
    · obtain ⟨hlt, hwn⟩ := hchild.fresh n hn hvis
      exact ⟨h.index.trans hlt, hreach.trans hwn⟩
  low n hn hnv := by
    have hvis := h.visited n hn
    rw [hchild.low n hvis (fun heq => hw (heq ▸ hvis))]
    exact h.low n hn hnv
  stack := by rw [hchild.stack, h.stack, List.append_assoc]
  new_fresh n hn hvis := by
    rcases List.mem_append.mp hn with hn | hn
    · exact hchild.new_fresh n hn (h.visited n hvis)
    · exact h.new_fresh n hn hvis
  foot := List.Subset.trans h.foot hchild.foot

theorem Grown.lower (h : Grown vfs o s s' v new) (l : ℕ) : Grown vfs o s (s'.lower v l) v new where
  index := h.index
  visited n hn := (visited_lower s' n v l).mpr (h.visited n hn)
  done := h.done
  ind n hn := (ind_lower s' n v l).trans (h.ind n hn)
  fresh n hn hfresh := by
    rw [ind_lower]
    exact h.fresh n ((visited_lower s' n v l).mp hn) hfresh
  low n hn hnv := (low_lower_of_ne s' n v l hnv).trans (h.low n hn hnv)
  stack := h.stack
  new_fresh := h.new_fresh
  foot := h.foot

theorem Grown.addFoot (h : Grown vfs o s s' v new) (e : SVFGEdge) : Grown vfs o s (addFoot s' e) v new where
  index := h.index
  visited := h.visited
  done := h.done
  ind := h.ind
  fresh := h.fresh
  low := h.low
  stack := h.stack
  new_fresh := h.new_fresh
  foot := List.Subset.trans h.foot (List.subset_append_left _ _)

/-- What the visit of `v` leaves behind: a complete component, or `v` on the stack with the least
number among the nodes above. -/
structure Result (vfs : Versioning) (o : NodeID) (path : List NodeID) (s s' : SCC) (v : NodeID)
    (new : List NodeID) : Prop where
  inv : Inv vfs o path s'
  grown : Grown vfs o s s' v new
  visited : Visited s' v
  closed : Done s' v → new = [] ∧ s.index ≤ low s' v
  low_le : ¬ Done s' v → ∀ w ∈ new, low s' v ≤ low s' w

def Seen (vfs : Versioning) (o : NodeID) (s : SCC) (v : NodeID) (e : SVFGEdge) : Prop :=
  carries o e = true → e ∈ s.footprint ∧
    (¬ Ignored vfs e.dst → Visited s e.dst ∧ (Done s e.dst ∨ low s v ≤ ind s e.dst))

/-- While the edges of `v` are followed, `s` being the state after `v` was pushed. -/
structure Visiting (vfs : Versioning) (o : NodeID) (path : List NodeID) (s s' : SCC) (v : NodeID)
    (new : List NodeID) (seen : List SVFGEdge) : Prop where
  inv : Inv vfs o (v :: path) s'
  grown : Grown vfs o s s' v new
  low_le : ∀ w ∈ new, low s' v ≤ low s' w
  seen : ∀ e ∈ seen, Seen vfs o s' v e

variable {seen : List SVFGEdge} {e : SVFGEdge}

theorem Visiting.pending (h : Visiting vfs o path s s' v new seen) : Visited s' v ∧ v ∈ s'.stack := by
  have hmem := h.inv.path_stack v List.mem_cons_self
  exact ⟨h.inv.visited_stack hmem, hmem⟩

theorem Visiting.addFoot (h : Visiting vfs o path s s' v new seen) (he : e ∈ vfs.svfg.outEdges v)
    (hcarries : carries o e = true) : Visiting vfs o path s (addFoot s' e) v new seen where
  inv := h.inv.addFoot he hcarries
  grown := h.grown.addFoot e
  low_le := h.low_le
  seen e' he' hcarries' := by
    obtain ⟨hfoot, hdst⟩ := h.seen e' he' hcarries'
    exact ⟨List.mem_append_left _ hfoot, hdst⟩

theorem Visiting.cons (h : Visiting vfs o path s s' v new seen) (he : Seen vfs o s' v e) :
    Visiting vfs o path s s' v new (e :: seen) where
  inv := h.inv
  grown := h.grown
  low_le := h.low_le
  seen e' he' := by
    rcases List.mem_cons.mp he' with rfl | he'
    · exact he
    · exact h.seen e' he'

theorem Visiting.lower (h : Visiting vfs o path s s' v new seen) (hv : Visited s v) {l : ℕ}
    (hl : Lowers vfs o s' v l) : Visiting vfs o path s (s'.lower v l) v new seen := by
  have hle : low (s'.lower v l) v ≤ low s' v := by
    rw [low_lower_self s' v l h.pending.1]
    exact min_le_left _ _
  refine ⟨h.inv.lower hl, h.grown.lower l, fun u hu => ?_, fun e he hcarries => ?_⟩
  · have huv : u ≠ v := fun heq => h.grown.new_fresh u hu (heq ▸ hv)
    rw [low_lower_of_ne s' u v l huv]
    exact hle.trans (h.low_le u hu)
  · obtain ⟨hfoot, hdst⟩ := h.seen e he hcarries
    refine ⟨hfoot, fun hnot => ?_⟩
    obtain ⟨hvis, hedge⟩ := hdst hnot
    rw [visited_lower, done_lower, ind_lower]
    exact ⟨hvis, hedge.imp_right hle.trans⟩

theorem Visiting.child (h : Visiting vfs o path s s' v new seen) (hv : Visited s v)
    (hnext : Next vfs o v w) (hw : ¬ Visited s' w) (hchild : Result vfs o (v :: path) s' s'' w new') :
    Visiting vfs o path s (s''.lower v (low s'' w)) v (new' ++ new) seen ∧
      low (s''.lower v (low s'' w)) v ≤ low s'' w := by
  have hgrown := h.grown.child hchild.grown (.single hnext) hw
  obtain ⟨hvvis, hvstack⟩ := h.pending
  have hsame : ∀ {u : NodeID}, Visited s' u → low s'' u = low s' u := fun hu =>
    hchild.grown.low _ hu fun heq => hw (heq ▸ hu)
  have hvis : Visited s'' v := hchild.grown.visited v hvvis
  -- the child is on the stack, or its number is above that of `v`
  have hlowers : Lowers vfs o s'' v (low s'' w) := by
    by_cases hdone : Done s'' w
    · refine .inl ?_
      rw [hsame hvvis]
      exact (h.inv.low_le v hvstack).trans
        ((h.inv.ind_lt v hvvis).le.trans (hchild.closed hdone).2)
    · obtain ⟨m, hm, heq, hreach⟩ :=
        hchild.inv.low_reach w (hchild.inv.mem_stack hchild.visited hdone)
      exact .inr ⟨m, hm, heq, ReflTransGen.head hnext hreach⟩
  have hbelow : low (s''.lower v (low s'' w)) v ≤ low s'' w := by
    rw [low_lower_self s'' v _ hvis]
    exact min_le_right _ _
  have hle : low (s''.lower v (low s'' w)) v ≤ low s'' v := by
    rw [low_lower_self s'' v _ hvis]
    exact min_le_left _ _
  refine ⟨⟨hchild.inv.lower hlowers, hgrown.lower _, fun u hu => ?_, fun e he hcarries => ?_⟩, hbelow⟩
  · have huv : u ≠ v := fun heq => hgrown.new_fresh u hu (heq ▸ hv)
    rw [low_lower_of_ne s'' u v _ huv]
    rcases List.mem_append.mp hu with hu | hu
    · by_cases hdone : Done s'' w
      · rw [(hchild.closed hdone).1] at hu
        exact absurd hu List.not_mem_nil
      · exact hbelow.trans (hchild.low_le hdone u hu)
    · have hmem : u ∈ s'.stack := h.grown.stack ▸ List.mem_append_left s.stack hu
      rw [hsame (h.inv.visited_stack hmem)]
      exact hle.trans ((hsame hvvis).trans_le (h.low_le u hu))
  · obtain ⟨hfoot, hdst⟩ := h.seen e he hcarries
    refine ⟨hchild.grown.foot hfoot, fun hnot => ?_⟩
    obtain ⟨hevis, hedge⟩ := hdst hnot
    rw [visited_lower, done_lower, ind_lower, hchild.grown.ind _ hevis]
    refine ⟨hchild.grown.visited _ hevis, ?_⟩
    rcases hedge with hdone | hlow
    · exact .inl (hchild.grown.done _ hdone)
    · exact .inr (hle.trans ((hsame hvvis).trans_le hlow))

noncomputable def unvisited (vfs : Versioning) (s : SCC) : Finset NodeID :=
  vfs.svfg.nodes.toFinset.filter fun n => (s.nodeData n).isNone

theorem mem_unvisited {n : NodeID} : n ∈ unvisited vfs s ↔ n ∈ vfs.svfg.nodes ∧ ¬ Visited s n := by
  rw [unvisited, Finset.mem_filter, List.mem_toFinset, Visited, Option.isNone_iff_eq_none,
    Option.not_isSome_iff_eq_none]

theorem unvisited_subset (h : ∀ n, Visited s n → Visited s' n) : unvisited vfs s' ⊆ unvisited vfs s := by
  intro n hn
  rw [mem_unvisited] at hn ⊢
  exact ⟨hn.1, fun hvis => hn.2 (h n hvis)⟩

theorem card_unvisited_push (hv : ¬ Visited s v) (hnode : v ∈ vfs.svfg.nodes) :
    (unvisited vfs (s.push v)).card < (unvisited vfs s).card := by
  refine Finset.card_lt_card (Finset.ssubset_iff_subset_ne.mpr
    ⟨unvisited_subset fun n hn => (visited_push s n v).mpr (.inr hn), fun heq => ?_⟩)
  have hmem : v ∈ unvisited vfs s := mem_unvisited.mpr ⟨hnode, hv⟩
  rw [← heq, mem_unvisited] at hmem
  exact hmem.2 ((visited_push s v v).mpr (.inl rfl))

theorem Seen.edge (h : ∀ e ∈ vfs.svfg.outEdges v, Seen vfs o s v e) :
    (∀ m, Next vfs o v m → Visited s m ∧ (Done s m ∨ low s v ≤ ind s m)) ∧
      ∀ e ∈ vfs.svfg.outEdges v, carries o e = true → e ∈ s.footprint := by
  refine ⟨fun m hm => ?_, fun e he hcarries => (h e he hcarries).1⟩
  obtain ⟨e, he, hcarries, hdst, hnot⟩ := hm
  rw [← hdst] at hnot ⊢
  exact (h e he hcarries).2 hnot

def leave (s : SCC) (v : NodeID) : SCC :=
  match s.nodeData v with
  | some d => if d.lowlink = d.index then s.popSCC v else s
  | none => s

theorem leave_of_visited (hv : Visited s v) :
    leave s v = if low s v = ind s v then s.popSCC v else s := by
  obtain ⟨d, hd⟩ := Option.isSome_iff_exists.mp hv
  rw [leave, low, ind, hd]
  rfl

theorem Visiting.leave (h : Visiting vfs o path (s.push v) s' v new (vfs.svfg.outEdges v))
    (hinv : Inv vfs o path s) (hv : ¬ Visited s v) :
    ∃ new', Result vfs o path s (leave s' v) v new' := by
  have hentered : Visited (s.push v) v := (visited_push s v v).mpr (.inl rfl)
  have hkept : ∀ {n : NodeID}, Visited s n → Visited (s.push v) n := fun hn =>
    (visited_push s _ v).mpr (.inr hn)
  have hne : ∀ {n : NodeID}, Visited s n → n ≠ v := fun hn heq => hv (heq ▸ hn)
  have hindv : ind s' v = s.index := by rw [h.grown.ind v hentered, ind_push, if_pos rfl]
  have hind : ∀ {n : NodeID}, Visited s n → ind s' n = ind s n := fun hn => by
    rw [h.grown.ind _ (hkept hn), ind_push, if_neg (hne hn)]
  have hlow : ∀ {n : NodeID}, Visited s n → low s' n = low s n := fun hn => by
    rw [h.grown.low _ (hkept hn) (hne hn), low_push, if_neg (hne hn)]
  have hindex : s.index + 1 ≤ s'.index := h.grown.index
  have hstack : s'.stack = new ++ v :: s.stack := h.grown.stack
  have hnew : ∀ {w : NodeID}, w ∈ new → ¬ Visited s w ∧ w ≠ v := fun hw =>
    ⟨fun hvis => h.grown.new_fresh _ hw (hkept hvis),
      fun heq => h.grown.new_fresh _ hw (heq ▸ hentered)⟩
  have hfresh : ∀ n, Visited s' n → ¬ Visited s n → s.index ≤ ind s' n ∧ Reach vfs o v n := by
    intro n hn hnot
    by_cases hnv : n = v
    · rw [hnv, hindv]
      exact ⟨le_refl _, .refl⟩
    · have hnotentered : ¬ Visited (s.push v) n := fun hmem =>
        ((visited_push s n v).mp hmem).elim hnv hnot
      obtain ⟨hlt, hreach⟩ := h.grown.fresh n hn hnotentered
      exact ⟨(Nat.le_succ _).trans hlt, hreach⟩
  obtain ⟨hedge, hfoot⟩ := Seen.edge h.seen
  obtain ⟨hvis, hvstack⟩ := h.pending
  rw [leave_of_visited hvis]
  by_cases hroot : low s' v = ind s' v
  · rw [if_pos hroot]
    have hc : Complete vfs o path new s.stack s' v := {
      stack := hstack
      root := hroot
      new_fresh := by
        intro w hw
        obtain ⟨hwnot, hwv⟩ := hnew hw
        have hwvis := h.inv.visited_stack (hstack ▸ List.mem_append_left (v :: s.stack) hw)
        obtain ⟨hlt, hreach⟩ := h.grown.fresh w hwvis (h.grown.new_fresh w hw)
        refine ⟨fun hmem => ?_, hindv.trans_lt hlt, h.low_le w hw, hreach⟩
        rcases List.mem_cons.mp hmem with heq | hmem
        · exact hwv heq
        · exact hwnot (hinv.visited_stack (hinv.path_stack w hmem))
      old_lt := by
        intro w hw
        have hwvis := hinv.visited_stack hw
        rw [hind hwvis, hindv]
        exact hinv.ind_lt w hwvis
      path_old := hinv.path_stack
      edge := hedge
      foot_edge := hfoot }
    have hnotmem : v ∉ new := fun hmem => (hnew hmem).2 rfl
    have hclose := h.inv.close hc
    obtain ⟨hpstack, -, hpindex, hpfoot, hppart, hpind, hplow, hpvis, -⟩ := hc.popSCC hnotmem
    generalize s'.popSCC v = s'' at *
    refine ⟨[], hclose, ?_, (hpvis v).mpr hvis, fun _ => ⟨rfl, ?_⟩, fun hopen => ?_⟩
    · exact {
        index := by
          rw [hpindex]
          exact (Nat.le_succ _).trans hindex
        visited := fun n hn => (hpvis n).mpr (h.grown.visited n (hkept hn))
        done := by
          intro n hn
          rw [Done, hppart]
          split
          · rfl
          · exact h.grown.done n hn
        ind := fun n hn => (hpind n).trans (hind hn)
        fresh := by
          intro n hn hnot
          rw [hpind]
          exact hfresh n ((hpvis n).mp hn) hnot
        low := fun n hn _ => (hplow n).trans (hlow hn)
        stack := hpstack
        new_fresh := fun w hw => absurd hw List.not_mem_nil
        foot := by
          rw [hpfoot]
          exact h.grown.foot }
    · rw [hplow, hroot, hindv]
    · refine absurd ?_ hopen
      rw [Done, hppart, if_pos (.inl rfl)]
      rfl
  · rw [if_neg hroot]
    have hopen : ¬ Done s' v := h.inv.stack v hvstack
    refine ⟨new ++ [v], h.inv.leave hroot hedge hfoot, ?_, hvis, fun hdone => absurd hdone hopen,
      fun _ w hw => ?_⟩
    · exact {
        index := (Nat.le_succ _).trans hindex
        visited := fun n hn => h.grown.visited n (hkept hn)
        done := h.grown.done
        ind := fun n hn => hind hn
        fresh := hfresh
        low := fun n hn _ => hlow hn
        stack := by rw [hstack, List.append_assoc, List.singleton_append]
        new_fresh := by
          intro w hw
          rcases List.mem_append.mp hw with hw | hw
          · exact (hnew hw).1
          · rw [List.mem_singleton.mp hw]
            exact hv
        foot := h.grown.foot }
    · rcases List.mem_append.mp hw with hw | hw
      · exact h.low_le w hw
      · rw [List.mem_singleton.mp hw]

def Closed (vfs : Versioning) : Prop :=
  ∀ e ∈ vfs.svfg.edges, e.src ∈ vfs.svfg.nodes ∧ e.dst ∈ vfs.svfg.nodes

instance (vfs : Versioning) : Decidable (Closed vfs) :=
  inferInstanceAs (Decidable (∀ e ∈ vfs.svfg.edges, e.src ∈ vfs.svfg.nodes ∧ e.dst ∈ vfs.svfg.nodes))

section

variable {fuel : ℕ} (hclosed : Closed vfs)

include hclosed

theorem visitEdge_visiting (hvisit : ∀ s w, Inv vfs o (v :: path) s → ¬ Visited s w →
      w ∈ vfs.svfg.nodes → (unvisited vfs s).card ≤ fuel →
        ∃ new, Result vfs o (v :: path) s (SCC.visit vfs o fuel s w) w new)
    (hv : Visited s v) (he : e ∈ vfs.svfg.outEdges v) (h : Visiting vfs o path s s' v new seen)
    (hfuel : (unvisited vfs s).card ≤ fuel) :
    ∃ new', Visiting vfs o path s (visitEdge vfs o (SCC.visit vfs o fuel) v s' e) v new' (e :: seen) := by
  rw [visitEdge]
  by_cases hcarries : carries o e = true
  · rw [if_pos hcarries]
    have hfoot := h.addFoot he hcarries
    have hmem : e ∈ (addFoot s' e).footprint := List.mem_append_right _ List.mem_cons_self
    change ∃ new', Visiting vfs o path s (if (vfs.delta e.dst || vfs.isStore e.dst) = true then
        addFoot s' e else _) v new' (e :: seen)
    by_cases hignored : (vfs.delta e.dst || vfs.isStore e.dst) = true
    · rw [if_pos hignored]
      rw [Bool.or_eq_true] at hignored
      exact ⟨new, hfoot.cons fun _ => ⟨hmem, fun hnot => absurd hignored hnot⟩⟩
    · rw [if_neg hignored]
      rw [Bool.or_eq_true] at hignored
      have hnext : Next vfs o v e.dst := ⟨e, he, hcarries, rfl, hignored⟩
      cases hdata : s'.nodeData e.dst with
      | none =>
          have hnot : ¬ Visited (addFoot s' e) e.dst := by
            change ¬ (s'.nodeData e.dst).isSome = true
            rw [hdata]
            exact Bool.false_ne_true
          have hcard := Finset.card_le_card (@unvisited_subset vfs _ _ h.grown.visited)
          obtain ⟨new', hresult⟩ := hvisit (addFoot s' e) e.dst hfoot.inv hnot
            (hclosed e (mem_outEdges.mp he).1).2 (hcard.trans hfuel)
          obtain ⟨hvisiting, hle⟩ := hfoot.child hv hnext hnot hresult
          refine ⟨new' ++ new, hvisiting.cons fun _ => ⟨hresult.grown.foot hmem, fun _ => ?_⟩⟩
          rw [visited_lower, done_lower, ind_lower]
          refine ⟨hresult.visited, ?_⟩
          by_cases hdone : Done (SCC.visit vfs o fuel (addFoot s' e) e.dst) e.dst
          · exact .inl hdone
          · exact .inr (hle.trans (hresult.inv.low_le _
              (hresult.inv.mem_stack hresult.visited hdone)))
      | some d =>
          have hvis : Visited s' e.dst := by
            rw [Visited, hdata]
            rfl
          have hstack := hfoot.inv.onStack_iff e.dst
          have honStack : onStack (addFoot s' e) e.dst = d.onStack := by
            change ((s'.nodeData e.dst).map (·.onStack)).getD false = _
            rw [hdata]
            rfl
          have hind : ind (addFoot s' e) e.dst = d.index := by
            change ((s'.nodeData e.dst).map (·.index)).getD 0 = _
            rw [hdata]
            rfl
          rw [honStack] at hstack
          change ∃ new', Visiting vfs o path s (if d.onStack = true then
            (addFoot s' e).lower v d.index else addFoot s' e) v new' (e :: seen)
          by_cases hd : d.onStack = true
          · rw [if_pos hd]
            refine ⟨new, (hfoot.lower hv (.inr ⟨_, hstack.mp hd, hind, .single hnext⟩)).cons fun _ =>
              ⟨hmem, fun _ => ?_⟩⟩
            rw [visited_lower, done_lower, ind_lower, hind, low_lower_self _ v _ hfoot.pending.1]
            exact ⟨hvis, .inr (min_le_right _ _)⟩
          · rw [if_neg hd]
            refine ⟨new, hfoot.cons fun _ => ⟨hmem, fun _ => ⟨hvis, .inl ?_⟩⟩⟩
            exact ((hfoot.inv.visited_iff e.dst).mp hvis).resolve_left fun hmem => hd (hstack.mpr hmem)
  · rw [if_neg hcarries]
    exact ⟨new, h.cons fun hcarries' => absurd hcarries' hcarries⟩

theorem edges_visiting (hvisit : ∀ s w, Inv vfs o (v :: path) s → ¬ Visited s w →
      w ∈ vfs.svfg.nodes → (unvisited vfs s).card ≤ fuel →
        ∃ new, Result vfs o (v :: path) s (SCC.visit vfs o fuel s w) w new)
    (hv : Visited s v) (es : List SVFGEdge) (hes : ∀ e ∈ es, e ∈ vfs.svfg.outEdges v)
    (h : Visiting vfs o path s s' v new seen) (hfuel : (unvisited vfs s).card ≤ fuel) :
    ∃ new', Visiting vfs o path s (es.foldl (visitEdge vfs o (SCC.visit vfs o fuel) v) s') v new'
      (es.reverse ++ seen) := by
  induction es generalizing s' new seen with
  | nil => exact ⟨new, h⟩
  | cons e es ih =>
      obtain ⟨new', hnext⟩ :=
        visitEdge_visiting hclosed hvisit hv (hes e List.mem_cons_self) h hfuel
      obtain ⟨new'', hrest⟩ := ih (fun e' he' => hes e' (List.mem_cons_of_mem e he')) hnext
      refine ⟨new'', ?_⟩
      rw [List.reverse_cons, List.append_assoc]
      exact hrest

theorem visit_result (fuel : ℕ) (path : List NodeID) (s : SCC) (v : NodeID) (hinv : Inv vfs o path s)
    (hv : ¬ Visited s v) (hnode : v ∈ vfs.svfg.nodes) (hfuel : (unvisited vfs s).card ≤ fuel) :
    ∃ new, Result vfs o path s (SCC.visit vfs o fuel s v) v new := by
  have hlt := card_unvisited_push hv hnode
  induction fuel generalizing path s v with
  | zero => exact absurd (hlt.trans_le hfuel) (Nat.not_lt_zero _)
  | succ fuel ih =>
      have hstart : Visiting vfs o path (s.push v) (s.push v) v [] [] :=
        ⟨hinv.push hv hnode, .refl, fun _ hw => absurd hw List.not_mem_nil,
          fun _ he => absurd he List.not_mem_nil⟩
      have hvisit : ∀ s w, Inv vfs o (v :: path) s → ¬ Visited s w → w ∈ vfs.svfg.nodes →
          (unvisited vfs s).card ≤ fuel →
            ∃ new, Result vfs o (v :: path) s (SCC.visit vfs o fuel s w) w new :=
        fun s w hinv hw hnode hfuel => ih (v :: path) s w hinv hw hnode hfuel
          (card_unvisited_push hw hnode)
      obtain ⟨new, hvisiting⟩ := edges_visiting hclosed hvisit ((visited_push s v v).mpr (.inl rfl))
        (vfs.svfg.outEdges v) (fun _ he => he) hstart (Nat.le_of_lt_succ (hlt.trans_le hfuel))
      have hseen : Visiting vfs o path (s.push v)
          ((vfs.svfg.outEdges v).foldl (visitEdge vfs o (SCC.visit vfs o fuel) v) (s.push v)) v new
          (vfs.svfg.outEdges v) :=
        ⟨hvisiting.inv, hvisiting.grown, hvisiting.low_le, fun e he =>
          hvisiting.seen e (List.mem_append_left [] (List.mem_reverse.mpr he))⟩
      exact hseen.leave hinv hv

end

theorem Result.stack_nil (h : Result vfs o [] s s' v new) (hs : s.stack = []) : s'.stack = [] := by
  have hstack : s'.stack = new := by rw [h.grown.stack, hs, List.append_nil]
  by_cases hdone : Done s' v
  · rw [hstack, (h.closed hdone).1]
  · -- a node with the least number has a smaller one below
    have hv := h.inv.mem_stack h.visited hdone
    obtain ⟨m, hm, heq, -⟩ := h.inv.low_reach v hv
    have hlt := Nat.lt_of_le_of_ne (h.inv.low_le m hm) (h.inv.left_low m hm List.not_mem_nil)
    have hle := h.low_le hdone m (hstack ▸ hm)
    rw [heq] at hlt
    exact absurd hlt (Nat.not_lt_of_le hle)

/-- The search is over: the nodes reached from the starting nodes are in complete components. -/
structure Found (vfs : Versioning) (o : NodeID) (s : SCC) : Prop where
  done_iff : ∀ n, Done s n ↔ ∃ v ∈ vfs.osStartingNodes o, Reach vfs o v n
  part_lt : ∀ n i, s.partOf n = some i → i < s.currentSCC
  done_edge : ∀ n i, s.partOf n = some i → ∀ m, Next vfs o n m → ∃ j ≤ i, s.partOf m = some j
  done_part : ∀ n i, s.partOf n = some i → ∀ m, s.partOf m = some i ↔ Mutual vfs o n m
  foot : ∀ e, e ∈ s.footprint ↔ e ∈ vfs.svfg.edges ∧ carries o e = true ∧ Done s e.src

structure Searching (vfs : Versioning) (o : NodeID) (s : SCC) : Prop where
  inv : Inv vfs o [] s
  stack : s.stack = []
  origin : ∀ n, Visited s n → ∃ v ∈ vfs.osStartingNodes o, Reach vfs o v n

theorem Searching.done (h : Searching vfs o s) {n : NodeID} (hn : Visited s n) : Done s n := by
  have hmem := (h.inv.visited_iff n).mp hn
  rw [h.stack] at hmem
  exact hmem.resolve_left List.not_mem_nil

theorem starting_mem {n : NodeID} (hn : n ∈ vfs.osStartingNodes o) : n ∈ vfs.svfg.nodes := by
  rw [Versioning.osStartingNodes, List.mem_filter, Versioning.prelabeledNodes, List.mem_filter] at hn
  exact hn.1.1

theorem Searching.visit (hclosed : Closed vfs) (h : Searching vfs o s) (hv : v ∈ vfs.osStartingNodes o) :
    ∃ s', s' = (if (s.nodeData v).isNone then SCC.visit vfs o vfs.svfg.nodes.length s v else s) ∧
      Searching vfs o s' ∧ Visited s' v ∧ ∀ n, Visited s n → Visited s' n := by
  refine ⟨_, rfl, ?_⟩
  by_cases hnone : (s.nodeData v).isNone = true
  · have hnot : ¬ Visited s v := by
      rw [Visited, Option.isNone_iff_eq_none.mp hnone]
      exact Bool.false_ne_true
    have hcard : (unvisited vfs s).card ≤ vfs.svfg.nodes.length :=
      (Finset.card_filter_le _ _).trans (List.toFinset_card_le _)
    obtain ⟨new, hresult⟩ := visit_result hclosed _ [] s v h.inv hnot (starting_mem hv) hcard
    rw [if_pos hnone]
    refine ⟨⟨hresult.inv, hresult.stack_nil h.stack, fun n hn => ?_⟩, hresult.visited,
      hresult.grown.visited⟩
    by_cases hvis : Visited s n
    · exact h.origin n hvis
    · exact ⟨v, hv, (hresult.grown.fresh n hn hvis).2⟩
  · rw [if_neg hnone]
    refine ⟨h, ?_, fun _ hn => hn⟩
    rw [Visited, ← Option.not_isNone]
    simp [hnone]

theorem searching_foldl (hclosed : Closed vfs) {vs : List NodeID}
    (hvs : ∀ v ∈ vs, v ∈ vfs.osStartingNodes o) (h : Searching vfs o s) :
    ∃ s', s' = vs.foldl (fun s v =>
        if (s.nodeData v).isNone then SCC.visit vfs o vfs.svfg.nodes.length s v else s) s ∧
      Searching vfs o s' ∧ (∀ v ∈ vs, Visited s' v) ∧ ∀ n, Visited s n → Visited s' n := by
  induction vs generalizing s with
  | nil => exact ⟨s, rfl, h, fun _ hv => absurd hv List.not_mem_nil, fun _ hn => hn⟩
  | cons v vs ih =>
      obtain ⟨t, ht, hsearching, hvis, hkept⟩ := h.visit hclosed (hvs v List.mem_cons_self)
      obtain ⟨s', hs', hsearching', hall, hkept'⟩ :=
        ih (fun u hu => hvs u (List.mem_cons_of_mem v hu)) hsearching
      refine ⟨s', ?_, hsearching', fun u hu => ?_, fun n hn => hkept' n (hkept n hn)⟩
      · rw [List.foldl_cons, ← ht]
        exact hs'
      · rcases List.mem_cons.mp hu with rfl | hu
        · exact hkept' u hvis
        · exact hall u hu

theorem detectSCCs_found (hclosed : Closed vfs) : Found vfs o (detectSCCs vfs o) := by
  have hstart : Searching vfs o .new :=
    ⟨inv_start, rfl, fun n hn => by simp [Visited, SCC.new] at hn⟩
  obtain ⟨s, hs, h, hall, -⟩ := searching_foldl hclosed (fun _ hv => hv) hstart
  rw [detectSCCs, ← hs]
  exact {
    done_iff := by
      intro n
      refine ⟨fun hn => h.origin n (h.inv.visited_done hn), fun hn => ?_⟩
      obtain ⟨v, hv, hreach⟩ := hn
      exact h.inv.done_reach (h.done (hall v hv)) hreach
    part_lt := h.inv.part_lt
    done_edge := h.inv.done_edge
    done_part := h.inv.done_part
    foot := by
      intro e
      change e ∈ vfs.svfg.edges.filter (· ∈ s.footprint) ↔ _ ∧ _ ∧ Done s e.src
      rw [List.mem_filter, decide_eq_true_iff]
      refine and_congr_right fun he => ⟨fun hmem => ?_, ?_⟩
      · obtain ⟨-, hcarries, hsrc⟩ := h.inv.foot e hmem
        exact ⟨hcarries, h.done hsrc⟩
      · rintro ⟨hcarries, hdone⟩
        exact h.inv.left_foot e.src (h.inv.visited_done hdone) List.not_mem_nil e
          (mem_outEdges.mpr ⟨he, rfl⟩) hcarries }

section

variable (h : Found vfs o s) {n m : NodeID} {i j : ℕ}

include h

/-- Two nodes have the same number if each reaches the other and only then. -/
theorem Found.partOf_eq_iff (hn : s.partOf n = some i) (hm : s.partOf m = some j) :
    i = j ↔ Mutual vfs o n m := by
  rw [← h.done_part n i hn m, hm, Option.some_inj, eq_comm]

/-- The numbers fall along the edges between two components. -/
theorem Found.partOf_lt (hn : s.partOf n = some i) (hnext : Next vfs o n m)
    (hnot : ¬ Mutual vfs o n m) : ∃ j < i, s.partOf m = some j := by
  obtain ⟨j, hle, hj⟩ := h.done_edge n i hn m hnext
  refine ⟨j, Nat.lt_of_le_of_ne hle fun heq => hnot ?_, hj⟩
  exact (h.partOf_eq_iff hn hj).mp heq.symm

end

end SVF.WPA.FootprintRuns
