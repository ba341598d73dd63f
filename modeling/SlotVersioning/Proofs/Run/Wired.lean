import SlotVersioning.Proofs.Run.Charted
import SlotVersioning.Proofs.Run.Stable

/-!
# What the version graph records of a visit

Every visited site has a node, created by a definition or by a read. With usage versions, what
reaches a read flows into its version (`Wired.flowing`). The exception is a read that nothing
reached on its first visit, so that it defined its variable: one version that reaches it later does
not flow into it (`Wired.defining`).
-/

namespace SlotVersioning

open VersionGraph

namespace VersionGraph

/-- The key is the version of a definition or of a read. -/
def Owns (graph : VersionGraph) (key : VersionKey) : Prop :=
  graph.Has key .definition ∨ graph.Has key .use

theorem Owns.node {graph : VersionGraph} {key : VersionKey} (owns : graph.Owns key) :
    ∃ position origin, graph.identity? position = some (key, origin) ∧
      (origin = .use ∨ origin = .definition) ∧ origin ≠ .phiInput := by
  rcases owns with ⟨position, found⟩ | ⟨position, found⟩
  · exact ⟨position, _, found, .inr rfl, nofun⟩
  · exact ⟨position, _, found, .inl rfl, nofun⟩

theorem Owns.origin {graph : VersionGraph} {key : VersionKey} (owns : graph.Owns key)
    (sound : graph.Sound) {origin : VersionOrigin} (has : graph.Has key origin) :
    origin = .use ∨ origin = .definition := by
  rcases owns with defined | used
  · exact .inr (sound.unique has defined)
  · exact .inl (sound.unique has used)

theorem Owns.not_phiInput {graph : VersionGraph} {key : VersionKey} (owns : graph.Owns key)
    (sound : graph.Sound) : ¬ graph.Has key .phiInput :=
  fun has => nomatch owns.origin sound has

theorem Owns.plain {graph : VersionGraph} {key : VersionKey} (owns : graph.Owns key) :
    graph.Plain key := by
  rcases owns.node with ⟨position, origin, found, -, plain⟩
  exact ⟨origin, ⟨position, found⟩, plain⟩

/-- No node is lost, and the node of the key keeps what flows into it. -/
structure Spares (key : VersionKey) (before after : VersionGraph) : Prop where
  has : ∀ other origin, before.Has other origin → after.Has other origin
  identity : ∀ position origin, before.identity? position = some (key, origin) →
    after.identity? position = some (key, origin)
  flows : ∀ position origin, before.identity? position = some (key, origin) →
    ∀ source, after.FlowsTo source position ↔ before.FlowsTo source position

namespace Spares

variable {key : VersionKey} {before middle after : VersionGraph}

theorem refl (key : VersionKey) (graph : VersionGraph) : Spares key graph graph :=
  ⟨fun _ _ has => has, fun _ _ found => found, fun _ _ _ _ => Iff.rfl⟩

theorem trans (left : Spares key before middle) (right : Spares key middle after) :
    Spares key before after where
  has := fun other origin has => right.has other origin (left.has other origin has)
  identity := fun position origin found =>
    right.identity position origin (left.identity position origin found)
  flows := fun position origin found source =>
    (right.flows position origin (left.identity position origin found) source).trans
      (left.flows position origin found source)

end Spares

theorem Rewires.spares {key other : VersionKey} {before after : VersionGraph}
    (rewires : Rewires key before after) (sound : before.Sound) (plain : ¬ before.Has key .phiInput)
    (different : other ≠ key) : Spares other before after where
  has := fun _ _ has => rewires.has has
  identity := fun position _ found => rewires.identity position _ found
  flows := fun _ _ found source => rewires.flowsTo_iff sound plain found different source

theorem Similar.spares {before after : VersionGraph} (similar : Similar before after)
    (key : VersionKey) : Spares key before after where
  has := fun _ _ has => (similar.rewires key).has has
  identity := fun position _ found => (similar.identity position).trans found
  flows := fun position _ _ source => similar.flowsTo_iff source position

theorem Added.spares {before after : VersionGraph} {key : VersionKey} {origin : VersionOrigin}
    (added : Added before after key origin) (unknown : before.position? key = none)
    (sound : before.Sound) (other : VersionKey) : Spares other before after where
  has := fun _ _ has => (added.rewires other).has has
  identity := fun position _ found => (added.rewires other).identity position _ found
  flows := fun position _ _ source => added.flowsTo_iff unknown sound source position

end VersionGraph

/-- Making sure that there is a node for a numbered version keeps the state charted. -/
theorem Charted.ensured {before after : RunState} {graph : VersionGraph}
    (charted : Charted before graph) (key : VersionKey) (origin : VersionOrigin)
    (stored : after.tables.graph = some (graph.ensure key origin).1)
    (last : ∀ slot, before.last slot ≤ after.last slot)
    (numbered : 0 ≤ key.slot → key.version ≤ after.last key.slot) :
    Charted after (graph.ensure key origin).1 ∧
      ∀ other, Spares other graph (graph.ensure key origin).1 := by
  cases known : graph.position? key with
  | some position =>
      have similar := (ensure_known origin none known).2
      exact ⟨charted.of_identity stored last (similar.sound charted.sound) similar.identity,
        similar.spares⟩
  | none =>
      have added := (ensure_unknown origin none known).2
      exact ⟨charted.of_grown (added.sound known charted.sound) added.identity stored last
        numbered, added.spares known charted.sound⟩

/-! ## Records -/

/-- What the graph records of a read with the key's version that `reaching` arrives at. -/
inductive Wired (graph : VersionGraph) (key : VersionKey) (reaching : VersionSet) : Prop
  /-- What reaches the read flows into its version. -/
  | flowing (position : Nat) (origin : VersionOrigin)
      (found : graph.identity? position = some (key, origin))
      (created : origin = .use ∨ origin = .definition ∧ 2 ≤ reaching.cardinality)
      (reached : ∃ version, version ∈ reaching)
      (older : origin = .use → ∃ version ∈ reaching, version < key.version)
      (flows : ∀ version ∈ reaching, graph.FlowsTo ⟨key.slot, version⟩ position)
  /-- The read defined its variable, and nothing but a phantom flows into its version. -/
  | defining (position : Nat) (found : graph.identity? position = some (key, .definition))
      (few : reaching.cardinality < 2)
      (phantoms : ∀ source, graph.FlowsTo source position → graph.Has source .phantom)

/-- What the graph records of a visit. -/
structure Drawn (graph : VersionGraph) (isRead : Bool) (key : VersionKey) (reaching : VersionSet) :
    Prop where
  owns : graph.Owns key
  wired : isRead = true → Wired graph key reaching

namespace Wired

variable {graph next : VersionGraph} {key : VersionKey} {earlier reaching : VersionSet}

theorem owns (wired : Wired graph key reaching) : graph.Owns key := by
  cases wired with
  | flowing position origin found created =>
      rcases created with rfl | ⟨rfl, -⟩
      · exact .inr ⟨position, found⟩
      · exact .inl ⟨position, found⟩
  | defining position found => exact .inl ⟨position, found⟩

/-- A read that something reached on its first visit is still reached by an older version. -/
theorem exists_older (wired : Wired graph key reaching) (sound : graph.Sound)
    (isUse : graph.Has key .use) : ∃ version ∈ reaching, version < key.version := by
  cases wired with
  | flowing position origin found created reached older flows =>
      exact older (sound.unique ⟨position, found⟩ isUse)
  | defining position found few phantoms => exact nomatch sound.unique ⟨position, found⟩ isUse

theorem drawn (wired : Wired graph key reaching) (isRead : Bool) :
    Drawn graph isRead key reaching :=
  ⟨wired.owns, fun _ => wired⟩

theorem of_spares (wired : Wired graph key reaching) (spares : Spares key graph next) :
    Wired next key reaching := by
  cases wired with
  | flowing position origin found created reached older flows =>
      exact .flowing position origin (spares.identity position origin found) created reached older
        fun version member => (spares.flows position origin found _).2 (flows version member)
  | defining position found few phantoms =>
      exact .defining position (spares.identity position _ found) few fun source flows =>
        spares.has _ _ (phantoms source ((spares.flows position _ found source).1 flows))

/-- The record is right for more versions too while they are less than two. -/
theorem grow (wired : Wired graph key earlier) (subset : ∀ version ∈ earlier, version ∈ reaching)
    (few : reaching.cardinality < 2) : Wired graph key reaching := by
  cases wired with
  | defining position found _ phantoms => exact .defining position found few phantoms
  | flowing position origin found created reached older flows =>
      rcases reached with ⟨version, member⟩
      rcases reaching.cases_cardinality with rfl | ⟨only, rfl⟩ | several
      · exact absurd (subset version member) (VersionSet.not_mem_empty version)
      · rcases VersionSet.mem_singleton.1 (subset version member) with rfl
        have same : earlier = {version} := VersionSet.ext fun other =>
          ⟨subset other, fun equal => VersionSet.mem_singleton.1 equal ▸ member⟩
        exact same ▸ .flowing position origin found created ⟨version, member⟩ older flows
      · exact absurd several (Nat.not_le_of_lt few)

end Wired

namespace Drawn

variable {graph next : VersionGraph} {isRead : Bool} {key : VersionKey} {reaching : VersionSet}

theorem of_spares (drawn : Drawn graph isRead key reaching) (spares : Spares key graph next) :
    Drawn next isRead key reaching where
  owns := drawn.owns.imp (spares.has _ _) (spares.has _ _)
  wired := fun reads => (drawn.wired reads).of_spares spares

end Drawn

/-- What a visit does to the graph. -/
structure Redraws (isRead : Bool) (key : VersionKey) (reaching : VersionSet)
    (before after : VersionGraph) : Prop where
  has : ∀ other origin, before.Has other origin → after.Has other origin
  spares : ∀ other, other ≠ key → Spares other before after
  drawn : Drawn after isRead key reaching

namespace Redraws

variable {graph middle next : VersionGraph} {isRead : Bool} {key : VersionKey}
  {reaching earlier : VersionSet}

theorem trans (left : Redraws isRead key earlier graph middle)
    (right : Redraws isRead key reaching middle next) : Redraws isRead key reaching graph next where
  has := fun other origin has => right.has other origin (left.has other origin has)
  spares := fun other different =>
    (left.spares other different).trans (right.spares other different)
  drawn := right.drawn

theorem after (before : ∀ other, Spares other graph middle)
    (draws : Redraws isRead key reaching middle next) : Redraws isRead key reaching graph next where
  has := fun other origin has => draws.has other origin ((before key).has other origin has)
  spares := fun other different => (before other).trans (draws.spares other different)
  drawn := draws.drawn

theorem before (draws : Redraws isRead key reaching graph middle)
    (after : ∀ other, Spares other middle next) : Redraws isRead key reaching graph next where
  has := fun other origin has => (after key).has other origin (draws.has other origin has)
  spares := fun other different => (draws.spares other different).trans (after other)
  drawn := draws.drawn.of_spares (after key)

/-- A node that was added for a definition records that nothing reached it. -/
theorem of_added (added : Added graph next key .definition) (unknown : graph.position? key = none)
    (sound : graph.Sound) (nothing : isRead = true → reaching = ∅) :
    Redraws isRead key reaching graph next where
  has := fun _ _ has => (added.rewires key).has has
  spares := fun other _ => added.spares unknown sound other
  drawn := by
    have found : next.identity? graph.size = some (key, .definition) := by
      rw [added.identity, if_pos rfl]
    refine ⟨.inl ⟨graph.size, found⟩, fun reads => .defining graph.size found ?_ ?_⟩
    · rw [nothing reads, VersionSet.cardinality_empty]
      exact Nat.zero_lt_two
    · exact fun source flows => absurd flows (added.not_flowsTo source)

/-- A node that was added for a read records the version that reached it. -/
theorem of_chained {source : Version} {place way : Nat}
    (chained : Chained ⟨key.slot, source⟩ key .use place way graph next)
    (unknown : graph.position? key = none) (sound : graph.Sound)
    (owns : graph.Owns ⟨key.slot, source⟩) (older : source < key.version) :
    Redraws isRead key {source} graph next where
  has := fun _ _ has => (chained.rewires key).has has
  spares := by
    intro other different
    refine (chained.rewires key).spares sound (fun isInput => ?_) different
    rcases sound.position?_of_has isInput with ⟨position, placed⟩
    exact nomatch unknown.symm.trans placed
  drawn := by
    refine Wired.drawn (.flowing way .use chained.found (.inl rfl)
      ⟨source, VersionSet.mem_singleton.2 rfl⟩
      (fun _ => ⟨source, VersionSet.mem_singleton.2 rfl, older⟩) fun version member => ?_) isRead
    rcases VersionSet.mem_singleton.1 member with rfl
    rcases chained.source with ⟨created, atPlace⟩
    have stays := chained.stays place _ atPlace
    refine ⟨place, by rw [chained.intoWay]; exact List.mem_singleton.2 rfl, ?_⟩
    refine broughtBy?_plain stays ?_
    rintro rfl
    exact owns.not_phiInput sound ⟨place, atPlace⟩

theorem of_similar (similar : Similar graph next) (drawn : Drawn graph isRead key reaching) :
    Redraws isRead key reaching graph next where
  has := fun _ _ has => (similar.rewires key).has has
  spares := fun other _ => similar.spares other
  drawn := drawn.of_spares (similar.spares key)

/-- Several versions that were wired into a node are recorded. -/
theorem of_merged {position : Nat} {origin : VersionOrigin} {phantom : Option Version}
    (merged : RunM.Merged key position reaching phantom graph next) (sound : graph.Sound)
    (found : graph.identity? position = some (key, origin))
    (created : origin = .use ∨ origin = .definition) (several : 2 ≤ reaching.cardinality)
    (older : origin = .use → ∃ version ∈ reaching, version < key.version) :
    Redraws isRead key reaching graph next where
  has := fun _ _ has => merged.rewires.has has
  spares := by
    have plain : origin ≠ .phiInput := by
      rintro rfl
      exact nomatch created
    exact fun other different =>
      merged.rewires.spares sound (sound.not_phiInput found plain) different
  drawn := by
    exact Wired.drawn (.flowing position origin (merged.rewires.identity position _ found)
      (created.imp_right fun defined => ⟨defined, several⟩)
      (VersionSet.exists_mem_of_several several) older merged.flows) isRead

theorem of_haunts {position : Nat} {origin : VersionOrigin} {phantom : Option Version}
    (haunts : RunM.Haunts key position phantom graph next) (sound : graph.Sound)
    (found : graph.identity? position = some (key, origin)) (wired : Wired graph key reaching) :
    Redraws isRead key reaching graph next where
  has := fun _ _ has => haunts.rewires.has has
  spares := fun other different =>
    haunts.rewires.spares sound (wired.owns.not_phiInput sound) different
  drawn := by
    have here {place : Nat} {created : VersionOrigin}
        (there : graph.identity? place = some (key, created)) : place = position := by
      have same := (sound.indexed _ _ _ there).symm.trans (sound.indexed _ _ _ found)
      exact Option.some.inj same
    refine Wired.drawn ?_ isRead
    cases wired with
    | flowing place created there origin reached older flows =>
        exact .flowing place created (haunts.rewires.identity place _ there) origin reached older
          fun version member => here there ▸ haunts.flows _ (here there ▸ flows version member)
    | defining place there few phantoms =>
        refine .defining place (haunts.rewires.identity place _ there) few fun source flows => ?_
        rcases haunts.flowed source (here there ▸ flows) with ⟨isPhantom, -⟩ | before
        · exact isPhantom
        · exact haunts.rewires.has (phantoms source (here there ▸ before))

end Redraws

end SlotVersioning
