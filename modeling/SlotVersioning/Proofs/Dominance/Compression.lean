import SlotVersioning.Proofs.Dominance.Forest

/-!
# What compression leaves alone

`Forest.Compresses` shortens a path with nothing to bound its steps. It ends, in one way only, and
`Forest.compress` has fuel enough to come to the same end. Of the nodes that tie in rank a forest
records the one of greatest number: `untied` is the rank that says so. Under it the links alone
decide what `Forest.eval` answers, so no question changes the answer to another one.
-/

namespace SlotVersioning

namespace Forest

open SlotVersioning.Numbering

variable {graph : Adjacency} {entry : Nat} {numbering : Numbering} {rank weight : Nat → Nat}
variable {bound : Nat} {forest first second : Forest} {node other best upper lower : Nat}

/-! ## The end of a compression -/

/-- Compressing the path above `node`, which is not a root, ends, and it ends with the last
forest. -/
inductive Compresses (rank : Nat → Nat) (forest : Forest) : Nat → Forest → Prop
  | short {node ancestor : Nat} (found : forest.ancestor? node = some ancestor)
      (atRoot : forest.ancestor? ancestor = none) : Compresses rank forest node forest
  | long {node ancestor above : Nat} {compressed : Forest}
      (found : forest.ancestor? node = some ancestor)
      (foundAbove : forest.ancestor? ancestor = some above)
      (rest : Compresses rank forest ancestor compressed) :
      Compresses rank forest node (compressed.shorten rank node ancestor)

theorem Compresses.unique (left : Compresses rank forest node first)
    (right : Compresses rank forest node second) : first = second := by
  induction left generalizing second with
  | short found atRoot =>
      cases right with
      | short _ _ => rfl
      | long again foundAbove _ =>
          obtain rfl := Option.some.inj (found.symm.trans again)
          exact absurd foundAbove (atRoot ▸ (Option.some_ne_none _).symm)
  | long found foundAbove _ induction =>
      cases right with
      | short again atRoot =>
          obtain rfl := Option.some.inj (found.symm.trans again)
          exact absurd foundAbove (atRoot ▸ (Option.some_ne_none _).symm)
      | long again _ rest =>
          obtain rfl := Option.some.inj (found.symm.trans again)
          rw [induction rest]

/-- The numbers fall along a path, so one step for each of them is enough. -/
private theorem Covers.compresses (covers : forest.Covers numbering rank bound)
    (search : DepthFirst graph entry numbering) (weight : Nat → Nat) (fuel : Nat) :
    ∀ {node : Nat}, bound < numbering.number node → numbering.number node ≤ fuel →
      Compresses weight forest node (Forest.compress weight fuel forest node) := by
  induction fuel with
  | zero =>
      intro node linked enough
      omega
  | succ fuel induction =>
      intro node linked enough
      obtain ⟨ancestor, found, lower, ⟨low, unchanged⟩ | ⟨ancestorLinked, shortened⟩⟩ :=
        covers.compress_linked search linked
      · rw [unchanged]
        exact .short found (covers.root ancestor low).1
      · rw [shortened]
        obtain ⟨above, foundAbove, -⟩ := covers.linked ancestor ancestorLinked
        exact .long found foundAbove (induction ancestorLinked (by omega))

theorem Covers.ancestor_eq_none_iff (covers : forest.Covers numbering rank bound) :
    forest.ancestor? node = none ↔ numbering.number node ≤ bound := by
  refine ⟨fun atRoot => ?_, fun low => (covers.root node low).1⟩
  by_contra linked
  obtain ⟨ancestor, found, -⟩ := covers.linked node (Nat.lt_of_not_le linked)
  exact absurd found (atRoot ▸ (Option.some_ne_none _).symm)

/-- A question about a linked node compresses the path above it. -/
theorem Covers.eval_eq_compresses (covers : forest.Covers numbering rank bound)
    (search : DepthFirst graph entry numbering) (weight : Nat → Nat)
    (linked : bound < numbering.number node) :
    ∃ compressed, Compresses weight forest node compressed ∧
      forest.eval weight node = (compressed.bestOf node, compressed) :=
  ⟨_, covers.compresses search weight _ linked (covers.number_le search node),
    covers.eval_eq_compress linked weight⟩

/-! ## Ties -/

/-- `rank`, but of the nodes that tie the one of greatest number comes first. -/
def untied (numbering : Numbering) (rank : Nat → Nat) (node : Nat) : Nat :=
  rank node * (numbering.numbers.size + 1) + (numbering.numbers.size - numbering.number node)

theorem rank_eq_untied_div (numbering : Numbering) (rank : Nat → Nat) (node : Nat) :
    rank node = untied numbering rank node / (numbering.numbers.size + 1) := by
  have small : numbering.numbers.size - numbering.number node < numbering.numbers.size + 1 := by
    omega
  rw [untied, Nat.mul_comm, Nat.mul_add_div (Nat.succ_pos _), Nat.div_eq_of_lt small, Nat.add_zero]

theorem rank_le_of_untied_le (atMost : untied numbering rank best ≤ untied numbering rank other) :
    rank best ≤ rank other := by
  rw [rank_eq_untied_div numbering rank best, rank_eq_untied_div numbering rank other]
  exact Nat.div_le_div_right atMost

theorem untied_congr (same : weight node = rank node) :
    untied numbering weight node = untied numbering rank node := by
  rw [untied, untied, same]

section

variable (search : DepthFirst graph entry numbering)

include search

private theorem eq_of_untied_eq (reached : 0 < numbering.number best)
    (equal : untied numbering rank best = untied numbering rank other) : best = other := by
  have sameRank : rank best = rank other := by
    rw [rank_eq_untied_div numbering rank best, equal, ← rank_eq_untied_div]
  have first := search.number_le_size best
  have second := search.number_le_size other
  refine search.number_injective reached ?_
  rw [untied, untied, sameRank] at equal
  omega

private theorem untied_lt_iff (ordered : numbering.number upper < numbering.number lower) :
    untied numbering rank upper < untied numbering rank lower ↔ rank upper < rank lower := by
  have bounded := search.number_le_size lower
  constructor
  · intro better
    refine Nat.lt_of_le_of_ne (rank_le_of_untied_le (Nat.le_of_lt better)) fun tie => ?_
    rw [untied, untied, tie] at better
    omega
  · intro better
    have apart := Nat.mul_le_mul_right (numbering.numbers.size + 1) (Nat.succ_le_of_lt better)
    rw [Nat.succ_mul] at apart
    rw [untied, untied]
    omega

end

private theorem shorten_congr {ancestor : Nat}
    (agree : weight (forest.bestOf ancestor) < weight (forest.bestOf node) ↔
      rank (forest.bestOf ancestor) < rank (forest.bestOf node)) :
    forest.shorten weight node ancestor = forest.shorten rank node ancestor := by
  simp only [Forest.shorten, agree]

/-- Compression compares nodes of which the first has the smaller number, so that two ranks which
agree on those compress in the same way. -/
private theorem Covers.compress_congr (covers : forest.Covers numbering weight bound)
    (search : DepthFirst graph entry numbering)
    (agree : ∀ {upper lower}, numbering.number upper < numbering.number lower →
      (weight upper < weight lower ↔ rank upper < rank lower)) (fuel : Nat) :
    ∀ {node : Nat}, numbering.number node ≤ fuel →
      Forest.compress weight fuel forest node = Forest.compress rank fuel forest node := by
  induction fuel with
  | zero => exact fun _ => rfl
  | succ fuel induction =>
      intro node enough
      rcases Nat.lt_or_ge bound (numbering.number node) with linked | low
      · obtain ⟨ancestor, found, lower, ⟨-, unchanged⟩ | ⟨ancestorLinked, shortened⟩⟩ :=
          covers.compress_linked search linked
        · rw [unchanged, unchanged]
        · rw [shortened, shortened, ← induction (by omega)]
          -- What is compared is what the compressed forest records on the two parts of the path.
          obtain ⟨compressed, kept, -⟩ := covers.compress search fuel
            (show numbering.number ancestor ≤ fuel by omega)
          obtain ⟨direct, foundDirect, below⟩ := compressed.linked node linked
          obtain ⟨_, -, higher⟩ := compressed.linked ancestor ancestorLinked
          obtain rfl := Option.some.inj (((kept node lower).trans found).symm.trans foundDirect)
          have ordered := Nat.lt_of_le_of_lt (search.number_le_of_ancestor higher.between.onPath)
            below.between.after
          exact shorten_congr (agree ordered)
      · rw [covers.compress_root low, covers.compress_root low]

theorem Covers.eval_untied (covers : forest.Covers numbering (untied numbering rank) bound)
    (search : DepthFirst graph entry numbering) (node : Nat) :
    forest.eval (untied numbering rank) node = forest.eval rank node := by
  have same := covers.compress_congr search (untied_lt_iff search) forest.ancestors.size
    (covers.number_le search node)
  rw [Forest.eval, Forest.eval, same]

/-- No question changes the answer to another one. -/
theorem Covers.eval_eval (covers : forest.Covers numbering (untied numbering rank) bound)
    (search : DepthFirst graph entry numbering) (node other : Nat) :
    ((forest.eval rank node).2.eval rank other).1 = (forest.eval rank other).1 := by
  have after := covers.eval search node
  rw [← covers.eval_untied search node, ← after.eval_untied search, ← covers.eval_untied search]
  rcases Nat.lt_or_ge bound (numbering.number other) with linked | low
  · obtain ⟨onPath, high, least⟩ := covers.eval_linked search linked
    obtain ⟨onPathAfter, highAfter, leastAfter⟩ := after.eval_linked search linked
    exact eq_of_untied_eq search (Nat.zero_lt_of_lt highAfter)
      (Nat.le_antisymm (leastAfter _ onPath high) (least _ onPathAfter highAfter))
  · rw [after.eval_root low, covers.eval_root low]

/-! ## Paths of links -/

/-- `other` is on the path of links from `node` up to, but not including, the root. -/
inductive OnPath (link : Nat → Option Nat) (other : Nat) : (node : Nat) → Prop
  | self {parent : Nat} (isLink : link other = some parent) : OnPath link other other
  | up {node parent : Nat} (isLink : link node = some parent) (rest : OnPath link other parent) :
      OnPath link other node

/-- `best` has the least rank on the path of links from `node`. -/
structure LeastOnPath (link : Nat → Option Nat) (rank : Nat → Nat) (node best : Nat) : Prop where
  onPath : OnPath link best node
  least : ∀ other, OnPath link other node → rank best ≤ rank other

/-- When the nodes above `bound` in number are linked to their parents, those on the path of links
are the linked ancestors. -/
theorem onPath_iff {link : Nat → Option Nat} (search : DepthFirst graph entry numbering)
    (positive : 0 < bound)
    (links : ∀ node parent, link node = some parent ↔
      bound < numbering.number node ∧ numbering.parent? node = some parent) :
    OnPath link other node ↔ numbering.Ancestor other node ∧ bound < numbering.number other := by
  have isLink : ∀ node, bound < numbering.number node → ∃ parent,
      link node = some parent ∧ numbering.parent? node = some parent := by
    intro node linked
    obtain ⟨parent, isParent⟩ := search.hasParent node (by omega)
    exact ⟨parent, (links node parent).mpr ⟨linked, isParent⟩, isParent⟩
  constructor
  · intro onPath
    induction onPath with
    | self isLink => exact ⟨.refl, ((links _ _).mp isLink).1⟩
    | up isLink _ induction => exact ⟨.up ((links _ _).mp isLink).2 induction.1, induction.2⟩
  · rintro ⟨ancestor, linked⟩
    induction ancestor with
    | refl =>
        obtain ⟨parent, toParent, -⟩ := isLink other linked
        exact .self toParent
    | up isParent rest induction =>
        have lower := search.number_le_of_ancestor (.up isParent rest)
        exact .up ((links _ _).mpr ⟨Nat.lt_of_lt_of_le linked lower, isParent⟩) induction

end Forest

end SlotVersioning
