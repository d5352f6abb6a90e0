import Layering.Proofs.Graph.Soundness
import Mathlib.Logic.Function.Iterate

/-!
# Moments of the search

A moment of the search of a whole graph is a number of steps from a start, after the starts that come
before it (`Moment`). Each step leads from one moment to the next (`config_next`), and as long as frames
are left, the configuration of a moment is coherent (`Moment.coherent`). In it the path holds the names
of all frames, or of all but one that was just pushed (`IsJustPushed`).

The main result, `loop_invariant`, says what holds at every moment, and what the search may therefore
rely on: the name that is taken off the path is the one of the frame that is left, and a name that is
being visited need not be looked up on the path.
-/

namespace Layering.Graph

open Layering.Cycle

variable {g : Graph} {s s' : Traversal} {f : Frame} {below : List Frame}

/-! ## Steps of a run -/

theorem step_of_stack_eq_nil (hs : s.stack = []) : g.step s = s := by
  simp [step, hs]

/-- A search that has ended stays as it is, so a run is an iteration of steps. -/
theorem run_eq_iterate (k : ℕ) (s : Traversal) : g.run k s = g.step^[k] s := by
  induction k generalizing s with
  | zero => rfl
  | succ k ih =>
    rw [Function.iterate_succ_apply]
    rcases hstack : s.stack with _ | ⟨f, below⟩
    · rw [step_of_stack_eq_nil hstack, ← ih, run_of_stack_eq_nil _ hstack,
        run_of_stack_eq_nil _ hstack]
    · rw [run_succ_of_stack_eq_cons k hstack, ih]

theorem run_add (j k : ℕ) (s : Traversal) : g.run (j + k) s = g.run k (g.run j s) := by
  rw [run_eq_iterate, run_eq_iterate, run_eq_iterate, Nat.add_comm, Function.iterate_add_apply]

/-! ## Moments -/

/-- The state of the search after the visits of some starts. -/
def surveyAfter (g : Graph) (starts : List String) : Survey := starts.foldl g.visit ⟨[], [], 0⟩

/-- A moment of the search of a graph. -/
structure Moment (g : Graph) where
  /-- The starts that come before the one that the search goes out from. -/
  before : List String
  /-- The start that the search goes out from. -/
  start : String
  /-- The number of steps from that start. -/
  steps : ℕ
  isNext : before ++ [start] <+: g.components.map (·.name)
  isSearched : IsSearched (g.surveyAfter before) start

namespace Moment

/-- The configuration of the search at a moment. -/
def config (m : Moment g) : Traversal :=
  g.run m.steps (g.startAt (g.surveyAfter m.before) m.start)

/-- The moment one step later. -/
def next (m : Moment g) : Moment g := { m with steps := m.steps + 1 }

theorem config_next (m : Moment g) : m.next.config = g.step m.config := by
  rw [config, config, run_eq_iterate, run_eq_iterate]
  exact Function.iterate_succ_apply' _ _ _

theorem before_isPrefix (m : Moment g) : m.before <+: g.components.map (·.name) :=
  (List.prefix_append _ _).trans m.isNext

theorem isSome_component?_start (m : Moment g) : (g.component? m.start).isSome :=
  isSome_component?_iff.mpr ⟨m.isSearched.1, m.isNext.subset (by simp)⟩

end Moment

/-- After the visits of the first starts no name is left that is being visited. -/
theorem isQuiet_surveyAfter {starts : List String} (h : starts <+: g.components.map (·.name)) :
    (g.surveyAfter starts).IsQuiet :=
  (foldl_visit (Q := fun _ => True) h.subset (fun _ => by simp [Survey.mark]) trivial
    fun _ _ _ _ => trivial).1

namespace Moment

theorem coherent_startAt (m : Moment g) :
    Coherent g (g.startAt (g.surveyAfter m.before) m.start) :=
  Graph.coherent_startAt (isQuiet_surveyAfter m.before_isPrefix) m.isSearched
    m.isSome_component?_start

/-- What a search keeps from its start on holds at every moment. -/
theorem kept {P : Traversal → Prop} (hP : Kept g P) (m : Moment g)
    (h0 : P (g.startAt (g.surveyAfter m.before) m.start)) : P m.config :=
  (hP.run m.steps m.coherent_startAt h0).2

/-- At every moment at which a frame is left, the search is coherent. -/
theorem coherent (m : Moment g) (hs : m.config.stack = f :: below) : Coherent g m.config := by
  have htrue : Kept g fun _ => True :=
    ⟨fun _ _ _ => trivial, fun _ _ _ => trivial, fun _ _ _ => trivial⟩
  rcases (htrue.run m.steps m.coherent_startAt trivial).1 with hc | hgiven
  · exact hc
  · rw [show m.config.stack = [] from hgiven.stack_eq] at hs
    cases hs

end Moment

/-! ## The frame that is not on the path yet -/

/-- A frame was just pushed: its name has not been visited, and all its dependencies are pending. -/
structure IsJustPushed (g : Graph) (s : Traversal) (f : Frame) : Prop where
  pending_eq : f.pending = g.dependencyNames f.name
  mark_eq : s.mark f.name = .unvisited

/-- The path holds the names of all frames, or of all but one that was just pushed; a search that was
given up has no frames. -/
def PathComplete (g : Graph) (s : Traversal) : Prop :=
  s.abandoned = true ∨ s.path = s.names.reverse ∨
    ∃ f below, s.stack = f :: below ∧ IsJustPushed g s f ∧ s.path = (below.map (·.name)).reverse

theorem kept_pathComplete (g : Graph) : Kept g (PathComplete g) where
  enter := fun hc hs _ => .inr (.inl (hc.enter hs).path_eq)
  abandon := fun _ _ _ => .inl rfl
  move := fun {s f below s'} he hm _ => by
    refine .inr ?_
    cases hm with
    | leave hf =>
      left
      change s.path.dropLast = (below.map (·.name)).reverse
      rw [he.path_eq_append, List.dropLast_concat]
    | push hf hdep =>
      rename_i dep rest
      right
      refine ⟨⟨dep, g.dependencyNames dep⟩, ⟨f.name, rest⟩ :: below, rfl, ⟨rfl, hdep⟩, ?_⟩
      exact he.path_eq.trans (congrArg List.reverse he.names_eq)
    | skip hf hdep =>
      left
      exact he.path_eq.trans (congrArg List.reverse he.names_eq)
    | close hf hdep =>
      left
      rw [Traversal.path_report, Traversal.names_report]
      exact he.path_eq.trans (congrArg List.reverse he.names_eq)

theorem pathComplete_startAt (v : Survey) {start : String} (h : v.mark start = .unvisited) :
    PathComplete g (g.startAt v start) :=
  .inr (.inr ⟨_, [], rfl, ⟨rfl, h⟩, rfl⟩)

namespace Moment

/-- The start of a search was not visited before. -/
theorem mark_start (m : Moment g) : (g.surveyAfter m.before).mark m.start = .unvisited := by
  cases hmark : (g.surveyAfter m.before).mark m.start with
  | unvisited => rfl
  | visiting => exact absurd hmark (isQuiet_surveyAfter m.before_isPrefix m.start)
  | done => exact absurd hmark m.isSearched.2

theorem path_eq (m : Moment g) (hs : m.config.stack = f :: below) :
    m.config.path = m.config.names.reverse ∨
      IsJustPushed g m.config f ∧ m.config.path = (below.map (·.name)).reverse := by
  have hpath := m.kept (kept_pathComplete g) (pathComplete_startAt _ m.mark_start)
  rcases hpath with habandoned | hall | ⟨f', below', hs', hpushed, hpath⟩
  · rw [(m.coherent hs).ongoing] at habandoned
    cases habandoned
  · exact .inl hall
  · obtain ⟨rfl, rfl⟩ := List.cons.inj (hs.symm.trans hs')
    exact .inr ⟨hpushed, hpath⟩

end Moment

/-! ## What the invariant is good for -/

/-- `follow` without a look at the path: a name that is being visited closes a cycle. -/
def followMark (g : Graph) (s : Traversal) (dep : String) : Traversal :=
  if (g.component? dep).isNone then s
  else match s.mark dep with
    | .unvisited => { s with stack := ⟨dep, g.dependencyNames dep⟩ :: s.stack }
    | .visiting => s.report dep
    | .done => s

theorem follow_eq_followMark {dep : String} (h : s.mark dep = .visiting → dep ∈ s.path) :
    g.follow s dep = g.followMark s dep := by
  unfold follow followMark
  split
  · rfl
  · cases hmark : s.mark dep with
    | unvisited => rfl
    | visiting => simp [h hmark]
    | done => rfl

namespace Moment

/-- The name that leaving a frame takes off the path is that of the frame. -/
theorem step_leave (m : Moment g) (hs : m.config.stack = f :: below)
    (hdeep : m.config.stack.length ≤ maxCycleDepth) (hf : f.pending = []) :
    (g.step m.config).stack = below ∧
      (m.config.enter f.name).path = (g.step m.config).path ++ [f.name] := by
  have hpath := ((m.coherent hs).enter hs).path_eq_append
  rw [step_of_pending_nil hs hdeep hf]
  refine ⟨rfl, ?_⟩
  change _ = (m.config.enter f.name).path.dropLast ++ [f.name]
  rw [hpath, List.dropLast_concat]

/-- The look at the path does not change what a step does. -/
theorem step_follow (m : Moment g) (hs : m.config.stack = f :: below)
    (hdeep : m.config.stack.length ≤ maxCycleDepth) {dep : String} {rest : List String}
    (hf : f.pending = dep :: rest) :
    g.step m.config =
      g.followMark { m.config.enter f.name with stack := ⟨f.name, rest⟩ :: below } dep := by
  rw [step_of_pending_cons hs hdeep hf]
  exact follow_eq_followMark ((((m.coherent hs).enter hs).visiting dep).mp)

end Moment

/-- **What holds before each step of the search.** Whatever the graph is, whichever start the search goes
out from and however many steps it has made, as long as a frame is left:

* the names of the frames differ from each other, and each is a dependency of the one below it;
* the path holds these names, the lowest first, where the top one may be missing if its frame was just
  pushed; and the names that are being visited are those on the path.

So leaving a frame takes the name of that frame off the path, and a name that is being visited closes a
cycle whether or not it is looked up on the path. After each start no name is left that is being
visited. -/
theorem loop_invariant (g : Graph) :
    (∀ (m : Moment g) (f : Frame) (below : List Frame), m.config.stack = f :: below →
      m.config.names.Nodup ∧
      (m.config.path = m.config.names.reverse ∨
        IsJustPushed g m.config f ∧ m.config.path = (below.map (·.name)).reverse) ∧
      (∀ n, m.config.mark n = .visiting ↔ n ∈ m.config.path) ∧
      m.config.names.IsChain (fun upper lower => upper ∈ g.dependencyNames lower) ∧
      (m.config.stack.length ≤ maxCycleDepth →
        (f.pending = [] →
          m.next.config.stack = below ∧
            (m.config.enter f.name).path = m.next.config.path ++ [f.name]) ∧
        ∀ dep rest, f.pending = dep :: rest →
          m.next.config =
            g.followMark { m.config.enter f.name with stack := ⟨f.name, rest⟩ :: below } dep)) ∧
    ∀ starts, starts <+: g.components.map (·.name) →
      ∀ n, (g.surveyAfter starts).mark n ≠ .visiting := by
  refine ⟨fun m f below hs => ?_, fun starts h => isQuiet_surveyAfter h⟩
  have hc := m.coherent hs
  rw [m.config_next]
  refine ⟨hc.nodup, m.path_eq hs, hc.visiting, hc.linked, fun hdeep => ⟨?_, ?_⟩⟩
  · exact m.step_leave hs hdeep
  · exact fun dep rest => m.step_follow hs hdeep

/-- The moment after the first step in the graph with two loops, which has pushed a frame. -/
def afterPush : Moment twoLoops := ⟨[], "ui", 1, by decide, by decide, by decide⟩

theorem loop_invariant_afterPush :
    afterPush.config.stack = [⟨"core", ["util", "ui"]⟩, ⟨"ui", []⟩] ∧
      afterPush.config.path = ["ui"] ∧
      afterPush.config.names.Nodup ∧
      IsJustPushed twoLoops afterPush.config ⟨"core", ["util", "ui"]⟩ ∧
      (∀ n, afterPush.config.mark n = .visiting ↔ n ∈ ["ui"]) ∧
      afterPush.config.names.IsChain (fun upper lower => upper ∈ twoLoops.dependencyNames lower) ∧
      ∀ n, (twoLoops.surveyAfter ["ui", "core"]).mark n ≠ .visiting := by
  have hs : afterPush.config.stack = [⟨"core", ["util", "ui"]⟩, ⟨"ui", []⟩] := by decide
  have hpath : afterPush.config.path = ["ui"] := by decide
  obtain ⟨hmoments, hstarts⟩ := loop_invariant twoLoops
  obtain ⟨hnodup, hpushed, hvisiting, hchain, -⟩ := hmoments afterPush _ _ hs
  have htop := (hpushed.resolve_left (by decide)).1
  rw [hpath] at hvisiting
  exact ⟨hs, hpath, hnodup, htop, hvisiting, hchain, hstarts ["ui", "core"] (by decide)⟩

end Layering.Graph
