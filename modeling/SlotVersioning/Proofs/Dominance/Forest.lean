import SlotVersioning.Dominance.Forest
import SlotVersioning.Proofs.Dominance.Semidominators

/-!
# What a link-eval forest answers

While the dominator algorithm runs, the nodes above a bound in number are linked to their parents.
`Forest.Covers` says what a forest records then: at every linked node an ancestor, and the best node
on the tree path to below that ancestor. Path compression keeps it, and `Forest.eval` reads off it
the best among all linked ancestors of a node.
-/

namespace SlotVersioning

namespace Forest

open SlotVersioning.Numbering

/-- What a linked node records: `best` has the least rank between `ancestor` and `node`, and all
nodes there are linked. -/
structure Spans (numbering : Numbering) (rank : Nat → Nat) (bound node ancestor best : Nat) :
    Prop where
  isAncestor : numbering.Ancestor ancestor node
  reached : 0 < numbering.number ancestor
  between : Between numbering ancestor node best
  linked : ∀ middle, Between numbering ancestor node middle → bound < numbering.number middle
  least : ∀ middle, Between numbering ancestor node middle → rank best ≤ rank middle

/-- The nodes above `bound` in number are linked, the others are roots. -/
structure Covers (numbering : Numbering) (rank : Nat → Nat) (bound : Nat) (forest : Forest) :
    Prop where
  ancestorsSized : forest.ancestors.size = numbering.numbers.size
  bestSized : forest.best.size = numbering.numbers.size
  root : ∀ node, numbering.number node ≤ bound →
    forest.ancestor? node = none ∧ forest.bestOf node = node
  linked : ∀ node, bound < numbering.number node → ∃ ancestor,
    forest.ancestor? node = some ancestor ∧
      Spans numbering rank bound node ancestor (forest.bestOf node)

variable {graph : Adjacency} {entry : Nat} {numbering : Numbering} {rank : Nat → Nat} {bound : Nat}
variable {forest : Forest} {node ancestor above best upper : Nat}

/-! ## Single operations -/

theorem covers_discrete (bounded : ∀ node, numbering.number node ≤ bound) :
    (discrete numbering.numbers.size).Covers numbering rank bound where
  ancestorsSized := by simp [discrete]
  bestSized := by simp [discrete]
  root := by
    intro node _
    constructor
    · simp only [ancestor?, discrete, Array.getD_eq_getD_getElem?, Array.getElem?_replicate]
      split <;> rfl
    · simp only [bestOf, discrete, Array.getD_eq_getD_getElem?, Array.getElem?_range]
      split <;> rfl
  linked := fun node linked => absurd (bounded node) (Nat.not_le_of_lt linked)

theorem Covers.congr_rank {other : Nat → Nat} (covers : forest.Covers numbering rank bound)
    (same : ∀ node, bound < numbering.number node → other node = rank node) :
    forest.Covers numbering other bound where
  __ := covers
  linked := by
    intro node linked
    obtain ⟨ancestor, found, spans⟩ := covers.linked node linked
    refine ⟨ancestor, found, { spans with least := fun middle between => ?_ }⟩
    rw [same middle (spans.linked middle between), same _ (spans.linked _ spans.between)]
    exact spans.least middle between

/-- A node that records more than its ancestor's part and its own can be put together. -/
theorem Spans.append (search : DepthFirst graph entry numbering)
    (lower : Spans numbering rank bound node ancestor best)
    (higher : Spans numbering rank bound ancestor above upper) :
    Spans numbering rank bound node above (if rank upper < rank best then upper else best) := by
  have upperAfter := Nat.lt_of_lt_of_le higher.between.after
    (search.number_le_of_ancestor higher.between.onPath)
  have bestBetween : Between numbering above node best :=
    ⟨Nat.lt_trans upperAfter lower.between.after, lower.between.onPath⟩
  have upperBetween : Between numbering above node upper :=
    ⟨higher.between.after, higher.between.onPath.trans lower.isAncestor⟩
  have parts : ∀ middle, Between numbering above node middle →
      Between numbering ancestor node middle ∨ Between numbering above ancestor middle := by
    intro middle between
    rcases Nat.lt_or_ge (numbering.number ancestor) (numbering.number middle) with below | onto
    · exact .inl ⟨below, between.onPath⟩
    · exact .inr ⟨between.after, search.ancestor_of_le between.onPath lower.isAncestor
        (Nat.zero_lt_of_lt between.after) onto⟩
  refine ⟨higher.isAncestor.trans lower.isAncestor, higher.reached, ?_, ?_, ?_⟩
  · split
    · exact upperBetween
    · exact bestBetween
  · intro middle between
    rcases parts middle between with below | onto
    · exact lower.linked middle below
    · exact higher.linked middle onto
  · intro middle between
    rcases parts middle between with below | onto
    · have least := lower.least middle below
      split <;> omega
    · have least := higher.least middle onto
      split <;> omega

theorem ancestor_shorten (rank : Nat → Nat) (ancestor : Nat)
    (inBounds : node < forest.ancestors.size) (other : Nat) :
    (forest.shorten rank node ancestor).ancestor? other =
      if other = node then forest.ancestor? ancestor else forest.ancestor? other := by
  by_cases same : other = node
  · subst same
    simp [ancestor?, shorten, inBounds]
  · simp [ancestor?, shorten, same, Ne.symm same]

theorem best_shorten : (forest.shorten rank node ancestor).best =
    if rank (forest.bestOf ancestor) < rank (forest.bestOf node) then
      forest.best.setIfInBounds node (forest.bestOf ancestor)
    else forest.best := rfl

private theorem best_shorten_self (inBounds : node < forest.best.size) :
    (forest.shorten rank node ancestor).bestOf node =
      if rank (forest.bestOf ancestor) < rank (forest.bestOf node) then forest.bestOf ancestor
      else forest.bestOf node := by
  rw [bestOf, best_shorten]
  by_cases better : rank (forest.bestOf ancestor) < rank (forest.bestOf node)
  · rw [if_pos better, if_pos better]
    simp [inBounds]
  · rw [if_neg better, if_neg better, bestOf]

private theorem best_shorten_other {other : Nat} (different : other ≠ node) :
    (forest.shorten rank node ancestor).bestOf other = forest.bestOf other := by
  rw [bestOf, best_shorten]
  by_cases better : rank (forest.bestOf ancestor) < rank (forest.bestOf node)
  · rw [if_pos better]
    simp [bestOf, Ne.symm different]
  · rw [if_neg better, bestOf]

private theorem Covers.shorten (covers : forest.Covers numbering rank bound)
    (search : DepthFirst graph entry numbering) (linked : bound < numbering.number node)
    (found : forest.ancestor? node = some ancestor)
    (ancestorLinked : bound < numbering.number ancestor) :
    (forest.shorten rank node ancestor).Covers numbering rank bound := by
  have inBounds := lt_size_of_reached (Nat.zero_lt_of_lt linked)
  have ancestors := ancestor_shorten rank ancestor
    (covers.ancestorsSized ▸ inBounds)
  constructor
  case ancestorsSized => simpa [Forest.shorten] using covers.ancestorsSized
  case bestSized =>
    have sized := covers.bestSized
    simp only [Forest.shorten]
    split <;> simpa using sized
  case root =>
    intro other low
    have different : other ≠ node := fun same => by subst same; omega
    rw [ancestors, if_neg different, best_shorten_other different]
    exact covers.root other low
  case linked =>
    intro other high
    obtain ⟨above, foundAbove, higher⟩ := covers.linked ancestor ancestorLinked
    obtain ⟨direct, foundDirect, spans⟩ := covers.linked other high
    rw [ancestors]
    by_cases same : other = node
    · subst same
      obtain rfl := Option.some.inj (found.symm.trans foundDirect)
      rw [if_pos rfl, best_shorten_self (covers.bestSized ▸ inBounds)]
      exact ⟨above, foundAbove, spans.append search higher⟩
    · rw [if_neg same, best_shorten_other same]
      exact ⟨direct, foundDirect, spans⟩

/-! ## Path compression -/

theorem Covers.compress_root (covers : forest.Covers numbering rank bound)
    (low : numbering.number node ≤ bound) (weight : Nat → Nat) (fuel : Nat) :
    Forest.compress weight fuel forest node = forest := by
  cases fuel with
  | zero => rfl
  | succ fuel => rw [Forest.compress, (covers.root node low).1]

/-- A path is compressed from its top: there is nothing to do for a node just below its root. -/
theorem Covers.compress_linked (covers : forest.Covers numbering rank bound)
    (search : DepthFirst graph entry numbering) (linked : bound < numbering.number node) :
    ∃ ancestor, forest.ancestor? node = some ancestor ∧
      numbering.number ancestor < numbering.number node ∧
      ((numbering.number ancestor ≤ bound ∧ ∀ weight fuel,
          Forest.compress weight (fuel + 1) forest node = forest) ∨
        (bound < numbering.number ancestor ∧ ∀ weight fuel,
          Forest.compress weight (fuel + 1) forest node =
            (Forest.compress weight fuel forest ancestor).shorten weight node ancestor)) := by
  obtain ⟨ancestor, found, spans⟩ := covers.linked node linked
  have lower := Nat.lt_of_lt_of_le spans.between.after
    (search.number_le_of_ancestor spans.between.onPath)
  refine ⟨ancestor, found, lower, ?_⟩
  rcases Nat.lt_or_ge bound (numbering.number ancestor) with ancestorLinked | low
  · obtain ⟨above, foundAbove, -⟩ := covers.linked ancestor ancestorLinked
    exact .inr ⟨ancestorLinked, fun weight fuel => by simp [Forest.compress, found, foundAbove]⟩
  · have atRoot := (covers.root ancestor low).1
    exact .inl ⟨low, fun weight fuel => by simp [Forest.compress, found, atRoot]⟩

/-- After compression a linked node records the part of its path up to a root. -/
theorem Covers.compress (search : DepthFirst graph entry numbering) (fuel : Nat) :
    ∀ {forest : Forest} {node : Nat}, forest.Covers numbering rank bound →
      numbering.number node ≤ fuel →
      (Forest.compress rank fuel forest node).Covers numbering rank bound ∧
        (∀ other, numbering.number node < numbering.number other →
          (Forest.compress rank fuel forest node).ancestor? other = forest.ancestor? other) ∧
        (bound < numbering.number node → ∃ root,
          (Forest.compress rank fuel forest node).ancestor? node = some root ∧
            numbering.number root ≤ bound) := by
  induction fuel with
  | zero =>
      intro forest node covers enough
      refine ⟨covers, fun _ _ => rfl, fun linked => ?_⟩
      omega
  | succ fuel induction =>
      intro forest node covers enough
      rcases Nat.lt_or_ge bound (numbering.number node) with linked | low
      · obtain ⟨ancestor, found, lower, ⟨ancestorLow, unchanged⟩ | ⟨ancestorLinked, shortened⟩⟩ :=
          covers.compress_linked search linked
        · rw [unchanged]
          exact ⟨covers, fun _ _ => rfl, fun _ => ⟨ancestor, found, ancestorLow⟩⟩
        · rw [shortened]
          obtain ⟨compressed, kept, atRoot⟩ := @induction forest ancestor covers (by omega)
          obtain ⟨root, foundRoot, rootLow⟩ := atRoot ancestorLinked
          have still := (kept node lower).trans found
          have inBounds := lt_size_of_reached (Nat.zero_lt_of_lt linked)
          have ancestors := ancestor_shorten rank ancestor
            (compressed.ancestorsSized ▸ inBounds)
          refine ⟨compressed.shorten search linked still ancestorLinked, fun other higher => ?_,
            fun _ => ⟨root, ?_, rootLow⟩⟩
          · rw [ancestors, if_neg (fun same => by subst same; omega)]
            exact kept other (Nat.lt_trans lower higher)
          · rw [ancestors, if_pos rfl]
            exact foundRoot
      · rw [covers.compress_root low]
        exact ⟨covers, fun _ _ => rfl, fun linked => absurd low (Nat.not_le_of_lt linked)⟩

/-! ## Questions and links -/

theorem Covers.eval_root (covers : forest.Covers numbering rank bound)
    (low : numbering.number node ≤ bound) : forest.eval rank node = (node, forest) := by
  rw [Forest.eval, (covers.root node low).1, Option.isNone_none, if_pos rfl]

theorem Covers.number_le (covers : forest.Covers numbering rank bound)
    (search : DepthFirst graph entry numbering) (node : Nat) :
    numbering.number node ≤ forest.ancestors.size :=
  covers.ancestorsSized ▸ search.number_le_size node

theorem Covers.eval_eq_compress (covers : forest.Covers numbering rank bound)
    (linked : bound < numbering.number node) (weight : Nat → Nat) :
    let compressed := Forest.compress weight forest.ancestors.size forest node
    forest.eval weight node = (compressed.bestOf node, compressed) := by
  obtain ⟨ancestor, found, -⟩ := covers.linked node linked
  rw [Forest.eval, found, Option.isNone_some, if_neg Bool.false_ne_true]

/-- The answer for a linked node is the best of its linked ancestors. -/
theorem Covers.eval_linked (covers : forest.Covers numbering rank bound)
    (search : DepthFirst graph entry numbering) (linked : bound < numbering.number node) :
    numbering.Ancestor (forest.eval rank node).1 node ∧
      bound < numbering.number (forest.eval rank node).1 ∧
      ∀ middle, numbering.Ancestor middle node → bound < numbering.number middle →
        rank (forest.eval rank node).1 ≤ rank middle := by
  obtain ⟨compressed, -, atRoot⟩ := Covers.compress search _ covers (covers.number_le search node)
  obtain ⟨root, foundRoot, rootLow⟩ := atRoot linked
  obtain ⟨direct, foundDirect, spans⟩ := compressed.linked node linked
  obtain rfl := Option.some.inj (foundRoot.symm.trans foundDirect)
  rw [covers.eval_eq_compress linked]
  exact ⟨spans.between.onPath, spans.linked _ spans.between, fun middle ancestor high =>
    spans.least middle ⟨Nat.lt_of_le_of_lt rootLow high, ancestor⟩⟩

theorem Covers.eval (covers : forest.Covers numbering rank bound)
    (search : DepthFirst graph entry numbering) (node : Nat) :
    (forest.eval rank node).2.Covers numbering rank bound := by
  rw [Forest.eval]
  split
  · exact covers
  · exact (Covers.compress search _ covers (covers.number_le search node)).1

theorem Covers.link (covers : forest.Covers numbering rank (bound + 1))
    (search : DepthFirst graph entry numbering) (last : numbering.number node = bound + 1)
    (isParent : numbering.parent? node = some ancestor) :
    (forest.link node (some ancestor)).Covers numbering rank bound := by
  have inBounds : node < numbering.numbers.size := lt_size_of_reached (by omega)
  have ancestors : ∀ other, (forest.link node (some ancestor)).ancestor? other =
      if other = node then some ancestor else forest.ancestor? other := by
    intro other
    have sized := covers.ancestorsSized ▸ inBounds
    by_cases same : other = node
    · subst same
      simp [ancestor?, Forest.link, sized]
    · simp [ancestor?, Forest.link, same, Ne.symm same]
  obtain ⟨reached, lower, -⟩ := search.parent node ancestor isParent
  constructor
  case ancestorsSized => simpa [Forest.link] using covers.ancestorsSized
  case bestSized => exact covers.bestSized
  case root =>
    intro other low
    rw [ancestors, if_neg (fun same => by subst same; omega)]
    exact covers.root other (Nat.le_succ_of_le low)
  case linked =>
    intro other high
    rw [ancestors]
    by_cases same : other = node
    · subst same
      have alone : ∀ middle, Between numbering ancestor other middle → middle = other := by
        intro middle between
        by_contra different
        have notLower := search.number_le_of_ancestor
          (between.onPath.of_isParent isParent different)
        have after := between.after
        omega
      have own : (forest.link other (some ancestor)).bestOf other = other :=
        (covers.root other (Nat.le_of_eq last)).2
      rw [if_pos rfl, own]
      refine ⟨ancestor, rfl, .up isParent .refl, reached, ⟨lower, .refl⟩, ?_, ?_⟩
      · exact fun middle between => alone middle between ▸ high
      · exact fun middle between => alone middle between ▸ Nat.le_refl _
    · have higher : bound + 1 < numbering.number other := by
        refine Nat.lt_of_le_of_ne high fun equal => same ?_
        exact search.number_injective (Nat.zero_lt_of_lt high) (equal.symm.trans last.symm)
      obtain ⟨direct, found, spans⟩ := covers.linked other higher
      rw [if_neg same]
      exact ⟨direct, found, { spans with
        linked := fun middle between => Nat.lt_of_succ_lt (spans.linked middle between) }⟩

end Forest

end SlotVersioning
