import CodeGraph.Proofs.CheckedPruning

/-!
The greatest settled part of a match.

A match is settled if it meets all demands that pruning makes. No round takes anything away from a
settled part of a match, so whatever is settled in the match that pruning began with is still there
when it ends, and what is left then is settled itself. In which order the demands are made does not
matter to this.

* `Matched.Settled`: the demands on a match.
* `PartOf.round`: what a round leaves has every settled part of what it was given.
* `Matched.isGreatestSettled_prune`: pruning leaves the greatest settled part.
-/

namespace CodeGraph

lemma Thinned.of_getD {α : Type} {xs ys : List (List α)} (hlen : xs.length = ys.length)
    (h : ∀ k : Nat, (xs.getD k []).Sublist (ys.getD k [])) : Thinned xs ys := by
  refine List.forall₂_iff_get.2 ⟨hlen, fun k hx hy => ?_⟩
  simpa [List.getD_eq_getElem?_getD, hx, hy] using h k

namespace Matched

variable {c : Chain} {m m' : Matched}

/-- A match is settled if every pair joins two candidates, every candidate is at the end of a pair
wherever there is a step, and all positions of one variable have the same candidates. -/
structure Settled (c : Chain) (m : Matched) : Prop extends Consistent c m where
  shared : ∀ (i j : Nat) n n', c.nodes[i]? = some n → c.nodes[j]? = some n' → n.name = n'.name →
    m.positions.getD i [] = m.positions.getD j []

/-- A match that a round does not change is settled. -/
lemma settled_of_stable (hm : Shaped c m) (hascending : ∀ set ∈ m.positions, NodeSet.Ascending set)
    (h : round c m = m) : Settled c m := by
  refine ⟨consistent_of_stable hm h, fun i j n n' hn hn' hname => ?_⟩
  have hthinned := keepNodes_thinned none m.positions (keepPairs m.positions m.pairs)
  have hlen := hthinned.length_eq.trans hm.positions
  have hpositions : shareNodes c (keepNodes none m.positions (keepPairs m.positions m.pairs))
      = m.positions :=
    congrArg Matched.positions h
  have hmem : ∀ {i j : Nat} {n n' : ChainNode}, c.nodes[i]? = some n → c.nodes[j]? = some n' →
      n.name = n'.name →
      ∀ id ∈ m.positions.getD i [], id ∈ m.positions.getD j [] := by
    intro i j n n' hn hn' hname id hid
    rw [← hpositions] at hid
    exact (hthinned.sublist_getD j).subset
      (mem_of_mem_shareNodes hlen hid (Chain.mem_positionsOf.2 ⟨n, hn, rfl⟩)
      (Chain.mem_positionsOf.2 ⟨n', hn', hname.symm⟩))
  exact (ascending_getD hascending i).ext (ascending_getD hascending j) fun id =>
    ⟨hmem hn hn' hname id, hmem hn' hn hname.symm id⟩

/-- A round keeps the pairs of a settled part. -/
lemma PartOf.thinned_keepPairs (hm : Shaped c m) (h : m'.PartOf m) (hsettled : Settled c m') :
    Thinned m'.pairs (keepPairs m.positions m.pairs) := by
  have hlen : m.positions.length = m.pairs.length + 1 := by rw [hm.positions, hm.pairs, hm.fits]
  refine .of_getD (h.pairs.length_eq.trans (keepPairs_thinned _ _).length_eq.symm) fun k => ?_
  rw [getD_keepPairs hlen]
  have hends : (m'.pairs.getD k []).filter (fun p => p.1 ∈ m.positions.getD k []
      ∧ p.2 ∈ m.positions.getD (k + 1) [])
      = m'.pairs.getD k [] := by
    refine List.filter_eq_self.2 fun p hp => decide_eq_true ?_
    obtain ⟨hfirst, hsecond⟩ := hsettled.ends k p.1 p.2 hp
    exact ⟨h.mem_of_mem hfirst, h.mem_of_mem hsecond⟩
  rw [← hends]
  exact (h.pairs.sublist_getD k).filter _

/-- A round keeps the candidates of a settled part: each has a pair before it and a pair after it,
which are kept. -/
lemma PartOf.mem_keepNodes (hm : Shaped c m) (h : m'.PartOf m) (hsettled : Settled c m') {k : Nat}
    {id : NodeId} (hid : id ∈ m'.positions.getD k []) :
    id ∈ (keepNodes none m.positions (keepPairs m.positions m.pairs)).getD k [] := by
  have hkept := (keepPairs_thinned m.positions m.pairs).length_eq.trans hm.pairs
  have hpairs := h.thinned_keepPairs hm hsettled
  refine mem_keepNodes_of_pairs (by rw [hkept, hm.positions, hm.fits])
    (h.mem_of_mem hid) (fun i hi => ?_) fun hlt => ?_
  · obtain ⟨p, hp⟩ := hsettled.before i id (hi ▸ hid)
    exact ⟨p, (hpairs.sublist_getD i).subset hp⟩
  · obtain ⟨q, hq⟩ := hsettled.after k id hid (hkept ▸ hlt)
    exact ⟨q, (hpairs.sublist_getD k).subset hq⟩

/-- **A round takes nothing away from a settled part.** -/
lemma PartOf.round (hm : Shaped c m) (hascending : ∀ set ∈ m.positions, NodeSet.Ascending set)
    (h : m'.PartOf m) (hsettled : Settled c m') : m'.PartOf (round c m) where
  positions := by
    have hround := round_partOf hm
    refine .of_getD (h.positions.length_eq.trans hround.positions.length_eq.symm) fun k => ?_
    refine (ascending_getD (h.ascending hascending) k).sublist_of_subset
      (ascending_getD (hround.ascending hascending) k) fun id hid => ?_
    have hlen :=
      (keepNodes_thinned none m.positions (keepPairs m.positions m.pairs)).length_eq.trans
      hm.positions
    refine mem_shareNodes hlen (h.mem_keepNodes hm hsettled hid) fun i n n' hn hn' hname => ?_
    exact h.mem_keepNodes hm hsettled (hsettled.shared k i n n' hn hn' hname.symm ▸ hid)
  pairs := h.thinned_keepPairs hm hsettled

/-- A settled part of a match of which every settled part is part. -/
structure IsGreatestSettled (c : Chain) (m greatest : Matched) : Prop where
  partOf : greatest.PartOf m
  settled : Settled c greatest
  partOf_of_settled : ∀ part : Matched, part.PartOf m → Settled c part → part.PartOf greatest

/-- **Pruning leaves the greatest settled part.** -/
lemma isGreatestSettled_prune (hm : Shaped c m)
    (hascending : ∀ set ∈ m.positions, NodeSet.Ascending set) :
    IsGreatestSettled c m (prune c m) where
  partOf := prune_partOf hm
  settled := settled_of_stable ((prune_partOf hm).shaped hm)
    ((prune_partOf hm).ascending hascending) (prune_stable hm)
  partOf_of_settled part hpart hsettled :=
    (settle_induction (P := fun x => part.PartOf x ∧ ∀ set ∈ x.positions, NodeSet.Ascending set)
      (fun _ hx h => ⟨h.1.round hx h.2 hsettled, (round_partOf hx).ascending h.2⟩) hm ⟨hpart,
        hascending⟩ _).1

/-- A settled match is left as it is. -/
lemma prune_of_settled (hm : Shaped c m) (hascending : ∀ set ∈ m.positions, NodeSet.Ascending set)
    (h : Settled c m) : prune c m = m :=
  (prune_partOf hm).eq_of_size_eq
    (le_antisymm (prune_partOf hm).size_le
      ((isGreatestSettled_prune hm hascending).partOf_of_settled m (.refl m) h).size_le)

end Matched
end CodeGraph
