import Layering.Proofs.Graph.Moment

/-!
# The whole search ends

Each step gets on with the search: it lowers the potential, also when it gives the search up, because
the only name that is then unvisited again had not been looked at (`Moment.potential_step_lt`). So no
frame is left once a search has made as many steps as it may make (`Moment.config_eq_search`).

Marks are never taken back, neither within a search nor from one start to a later one
(`Moment.mark_ne_unvisited`), and only names without a mark are pushed (`Moment.mark_of_pushes`). So a
name is not pushed any more once it is marked, in the whole search of the graph
(`search_terminates`).
-/

namespace Layering.Graph

open Layering.Cycle

variable {g : Graph} {s : Traversal} {f : Frame} {below : List Frame}

/-! ## Pending dependencies -/

/-- What is pending in a frame is the rest of the dependencies of its name. -/
theorem kept_pending_isSuffix (g : Graph) :
    Kept g fun s => ∀ f ∈ s.stack, f.pending <:+ g.dependencyNames f.name where
  enter := fun _ _ h => by simpa using h
  abandon := fun _ _ _ => List.forall_mem_nil _
  move := fun {s f below s'} he hm h => by
    rw [he.stack_eq, List.forall_mem_cons] at h
    obtain ⟨htop, hbelow⟩ := h
    have hrest : ∀ {dep rest}, f.pending = dep :: rest → rest <:+ g.dependencyNames f.name :=
      fun {dep rest} hf => (List.suffix_cons dep rest).trans (hf ▸ htop)
    cases hm with
    | leave hf => exact hbelow
    | push hf hdep =>
      exact List.forall_mem_cons.mpr ⟨List.suffix_rfl, List.forall_mem_cons.mpr ⟨hrest hf, hbelow⟩⟩
    | skip hf hdep => exact List.forall_mem_cons.mpr ⟨hrest hf, hbelow⟩
    | close hf hdep =>
      rw [Traversal.stack_report]
      exact List.forall_mem_cons.mpr ⟨hrest hf, hbelow⟩

theorem Moment.pending_isSuffix (m : Moment g) :
    ∀ f ∈ m.config.stack, f.pending <:+ g.dependencyNames f.name :=
  m.kept (kept_pending_isSuffix g) (List.forall_mem_singleton.mpr List.suffix_rfl)

/-! ## Every step lowers the potential -/

theorem owed_pos (f : Frame) (below : List Frame) : 0 < owed (f :: below) := by
  rw [owed_cons]
  omega

/-- The names that are unvisited once a search is given up: those that were neither visited nor pushed,
and the top one if its frame was just pushed. -/
theorem Coherent.fresh_abandon_subset (h : Coherent g s) (hs : s.stack = f :: below) :
    g.fresh s.abandon ⊆ insert f.name (g.fresh s) := by
  intro n hn
  rw [mem_fresh, Traversal.mark_abandon] at hn
  obtain ⟨hsome, hmark, -⟩ := hn
  split at hmark
  · cases hmark
  · rename_i hpath
    rw [Finset.mem_insert, mem_fresh]
    refine or_iff_not_imp_left.mpr fun hne => ⟨hsome, hmark, fun hmem => hpath ?_⟩
    -- a name on the stack is on the path, unless it is the top one
    rw [Traversal.names_of_stack_eq hs] at hmem
    have hbelow := (List.mem_cons.mp hmem).resolve_left hne
    rcases h.path with hall | ⟨top, rest, hnames, -, hrest⟩
    · rw [hall, Traversal.names_of_stack_eq hs, List.mem_reverse]
      exact List.mem_cons_of_mem _ hbelow
    · obtain ⟨-, rfl⟩ := List.cons.inj (hnames.symm.trans (Traversal.names_of_stack_eq hs))
      rw [hrest, List.mem_reverse]
      exact hbelow

namespace Moment

/-- Giving the search up lowers the potential: what the top frame costs was all pending if its name is
unvisited again, and there is a frame below it. -/
theorem potential_abandon_lt (m : Moment g) (hs : m.config.stack = f :: below)
    (hdeep : maxCycleDepth < m.config.stack.length) :
    potential g m.config.abandon < potential g m.config := by
  have hc := m.coherent hs
  have hpotential : potential g m.config.abandon =
      ∑ n ∈ g.fresh m.config.abandon, g.cost n := by
    simp [potential, Traversal.abandon]
  rw [hpotential, potential, hs]
  rcases m.path_eq hs with hall | ⟨hpushed, -⟩
  · have hsub : g.fresh m.config.abandon ⊆ g.fresh m.config := by
      intro n hn
      refine (Finset.mem_insert.mp (hc.fresh_abandon_subset hs hn)).resolve_left ?_
      rintro rfl
      have hmem : f.name ∈ m.config.path := by
        rw [hall, Traversal.names_of_stack_eq hs]
        simp
      rw [mem_fresh, Traversal.mark_abandon, if_pos hmem] at hn
      cases hn.2.1
    have hle := Finset.sum_le_sum_of_subset (f := g.cost) hsub
    have hpos := owed_pos f below
    omega
  · obtain ⟨next, rest, rfl⟩ : ∃ next rest, below = next :: rest := by
      refine List.exists_cons_of_ne_nil ?_
      rintro rfl
      rw [hs, List.length_singleton] at hdeep
      exact absurd hdeep (by decide)
    have hnotin : f.name ∉ g.fresh m.config := by
      intro hmem
      refine (mem_fresh.mp hmem).2.2 ?_
      rw [Traversal.names_of_stack_eq hs]
      exact List.mem_cons_self
    have hle := Finset.sum_le_sum_of_subset (f := g.cost) (hc.fresh_abandon_subset hs)
    rw [Finset.sum_insert hnotin] at hle
    have hcost : g.cost f.name = f.pending.length + 1 := by
      rw [cost, hpushed.pending_eq]
    have hpos := owed_pos next rest
    rw [owed_cons]
    omega

/-- Every step lowers the potential. -/
theorem potential_step_lt (m : Moment g) (hs : m.config.stack = f :: below) :
    potential g (g.step m.config) < potential g m.config := by
  rcases Nat.lt_or_ge maxCycleDepth m.config.stack.length with hdeep | hdeep
  · rw [step_of_deep hs hdeep]
    exact m.potential_abandon_lt hs hdeep
  · exact Graph.potential_step_lt (m.coherent hs) hs hdeep

/-! ## The end of a search -/

theorem stack_search (m : Moment g) :
    (g.search (g.surveyAfter m.before) m.start).stack = [] :=
  stack_run_eq_nil _ m.coherent_startAt (potential_startAt_le m.isSome_component?_start)

/-- From every moment on the search comes to the same end. -/
theorem run_config (m : Moment g) :
    g.run g.stepBound m.config = g.search (g.surveyAfter m.before) m.start := by
  rw [config, ← run_add, Nat.add_comm, run_add]
  exact run_of_stack_eq_nil _ m.stack_search

/-- Once a search has made the steps that it may make, it has ended. -/
theorem config_eq_search (m : Moment g) (h : g.stepBound ≤ m.steps) :
    m.config = g.search (g.surveyAfter m.before) m.start := by
  obtain ⟨k, hk⟩ := Nat.exists_eq_add_of_le h
  rw [config, hk, run_add]
  exact run_of_stack_eq_nil _ m.stack_search

/-! ## What a step does -/

/-- A step gives the search up, or the top frame has been entered and is left or looks at its next
dependency, for which a frame may be pushed. -/
theorem step_progress (m : Moment g) (hs : m.config.stack = f :: below) :
    (maxCycleDepth < m.config.stack.length ∧ (g.step m.config).stack = []) ∨
      (g.step m.config).mark f.name ≠ .unvisited ∧
        ((f.pending = [] ∧ (g.step m.config).stack = below) ∨
          ∃ dep rest, f.pending = dep :: rest ∧
            ((g.step m.config).stack = ⟨f.name, rest⟩ :: below ∨
              m.config.mark dep = .unvisited ∧ (g.step m.config).stack =
                ⟨dep, g.dependencyNames dep⟩ :: ⟨f.name, rest⟩ :: below)) := by
  have hc := m.coherent hs
  have he := hc.enter hs
  rcases step_cases hc hs with ⟨hdeep, hstep⟩ | ⟨-, hmove⟩
  · exact .inl ⟨hdeep, by rw [hstep]; rfl⟩
  · refine .inr ?_
    have hentered : (m.config.enter f.name).mark f.name = .visiting := by
      rw [he.mark_eq_visiting_iff, he.names_eq]
      exact List.mem_cons_self
    generalize g.step m.config = t at hmove
    cases hmove with
    | leave hf =>
      refine ⟨?_, .inl ⟨hf, rfl⟩⟩
      change ((m.config.enter f.name).setMark f.name .done).mark f.name ≠ .unvisited
      simp
    | push hf hdep =>
      rename_i dep rest
      refine ⟨?_, .inr ⟨dep, rest, hf, .inr ⟨?_, rfl⟩⟩⟩
      · exact hentered.trans_ne (by decide)
      · rw [Traversal.mark_enter] at hdep
        split at hdep
        · cases hdep
        · exact hdep
    | skip hf hdep => exact ⟨hentered.trans_ne (by decide), .inr ⟨_, _, hf, .inl rfl⟩⟩
    | close hf hdep =>
      rw [Traversal.mark_report, Traversal.stack_report]
      exact ⟨hentered.trans_ne (by decide), .inr ⟨_, _, hf, .inl rfl⟩⟩

/-- A frame for a name is pushed at a moment: as the first one of a search, or by the step from that
moment. -/
def Pushes (m : Moment g) (n : String) : Prop :=
  m.steps = 0 ∧ m.start = n ∨
    m.config.stack.length < m.next.config.stack.length ∧
      m.next.config.stack.head?.map (·.name) = some n

/-- Only names without a mark are pushed. -/
theorem mark_of_pushes (m : Moment g) {n : String} (h : m.Pushes n) :
    m.config.mark n = .unvisited := by
  rcases h with ⟨hsteps, rfl⟩ | ⟨hlonger, hname⟩
  · rw [config, hsteps]
    exact m.mark_start
  · rw [m.config_next] at hlonger hname
    rcases hs : m.config.stack with _ | ⟨f, below⟩
    · rw [step_of_stack_eq_nil hs] at hlonger
      omega
    · rw [hs] at hlonger
      rcases m.step_progress hs with ⟨-, hnil⟩ | ⟨-, ⟨-, hpop⟩ | ⟨dep, rest, -, hsame | ⟨hdep, hpush⟩⟩⟩
      · rw [hnil] at hlonger
        cases hlonger
      · rw [hpop, List.length_cons] at hlonger
        omega
      · rw [hsame, List.length_cons, List.length_cons] at hlonger
        omega
      · rw [hpush] at hname
        rwa [← Option.some.inj hname]

end Moment

/-! ## Marks stay -/

theorem kept_marked (g : Graph) (n : String) : Kept g fun s => s.mark n ≠ .unvisited where
  enter := fun _ _ hn => by
    rw [Traversal.mark_enter]
    split
    · decide
    · exact hn
  abandon := fun _ _ hn => by
    rw [Traversal.mark_abandon]
    split
    · decide
    · exact hn
  move := fun {s f below s'} _ hm hn => by
    cases hm with
    | leave hf =>
      change (s.setMark f.name .done).mark n ≠ .unvisited
      rw [Traversal.mark_setMark]
      split
      · decide
      · exact hn
    | push hf hdep => exact hn
    | skip hf hdep => exact hn
    | close hf hdep => rwa [Traversal.mark_report]

theorem mark_surveyAfter_append {starts later : List String} {n : String}
    (h : starts ++ later <+: g.components.map (·.name))
    (hn : (g.surveyAfter starts).mark n ≠ .unvisited) :
    (g.surveyAfter (starts ++ later)).mark n ≠ .unvisited := by
  have hquiet := isQuiet_surveyAfter ((List.prefix_append starts later).trans h)
  have hlater : later ⊆ g.components.map (·.name) :=
    fun x hx => h.subset (List.mem_append_right _ hx)
  rw [surveyAfter, List.foldl_append]
  refine (foldl_visit (Q := fun v => v.mark n ≠ .unvisited) hlater hquiet hn ?_).2
  intro v start hv hstart hs hmark
  rw [visit_of_isSearched hs]
  exact (search_end (kept_marked g n) hv hs hstart hmark).2.2

namespace Moment

/-- A moment comes before another if its start does, or if it is fewer steps from the same start. -/
instance : LE (Moment g) where
  le m m' := m.before.length < m'.before.length ∨
    m.before.length = m'.before.length ∧ m.steps ≤ m'.steps

/-- What a search keeps holds at all later moments from the same start. -/
theorem kept_run {P : Traversal → Prop} (hP : Kept g P) (m : Moment g) (k : ℕ) (h : P m.config) :
    P (g.run k m.config) := by
  rcases hs : m.config.stack with _ | ⟨f, below⟩
  · rwa [run_of_stack_eq_nil _ hs]
  · exact (hP.run k (m.coherent hs) h).2

theorem config_eq_run {m m' : Moment g} (h : m.before.length = m'.before.length)
    (hsteps : m.steps ≤ m'.steps) : m'.config = g.run (m'.steps - m.steps) m.config := by
  have hstarts : m.before ++ [m.start] = m'.before ++ [m'.start] := by
    refine (List.prefix_of_prefix_length_le m.isNext m'.isNext ?_).eq_of_length ?_ <;> simp [h]
  obtain ⟨hbefore, hstart⟩ := List.append_inj hstarts h
  rw [config, config, ← run_add, Nat.add_sub_cancel' hsteps, hbefore, List.singleton_inj.mp hstart]

/-- When a search has ended, its marks are handed on. -/
theorem mark_surveyAfter_start (m : Moment g) (n : String) :
    (g.surveyAfter (m.before ++ [m.start])).mark n =
      (g.search (g.surveyAfter m.before) m.start).mark n := by
  rw [surveyAfter, List.foldl_append, List.foldl_cons, List.foldl_nil, ← surveyAfter,
    visit_of_isSearched m.isSearched]
  rfl

/-- Marks are never taken back. -/
theorem mark_ne_unvisited {m m' : Moment g} (h : m ≤ m') {n : String}
    (hn : m.config.mark n ≠ .unvisited) : m'.config.mark n ≠ .unvisited := by
  rcases h with hbefore | ⟨hbefore, hsteps⟩
  · -- to the end of this search, over the starts in between, and on from the later start
    have hend := m.kept_run (kept_marked g n) g.stepBound hn
    rw [m.run_config, ← m.mark_surveyAfter_start] at hend
    obtain ⟨between, hbetween⟩ : m.before ++ [m.start] <+: m'.before :=
      List.prefix_of_prefix_length_le m.isNext m'.before_isPrefix
        (by rw [List.length_append, List.length_singleton]; exact hbefore)
    have hlater := mark_surveyAfter_append (hbetween ▸ m'.before_isPrefix) hend
    rw [hbetween] at hlater
    exact m'.kept (kept_marked g n) hlater
  · rw [config_eq_run hbefore hsteps]
    exact m.kept_run (kept_marked g n) _ hn

end Moment

/-- **The search ends.** For every graph:

* once a search has made as many steps as it may make, no frame is left, and it has come to the end that
  the visit of its start hands on;
* each step before that lowers the potential: it gives the search up and with it the start, or it has
  entered the top frame and leaves it, or moves on to the rest of a fixed list of dependencies, and may
  then push a frame for the dependency, whose name had no mark;
* a name that has been marked at some moment is not pushed at that moment or a later one, be it from the
  same start or from another. -/
theorem search_terminates (g : Graph) :
    (∀ m : Moment g, g.stepBound ≤ m.steps →
      m.config.stack = [] ∧ m.config = g.search (g.surveyAfter m.before) m.start) ∧
    (∀ (m : Moment g) (f : Frame) (below : List Frame), m.config.stack = f :: below →
      potential g m.next.config < potential g m.config ∧
      f.pending <:+ g.dependencyNames f.name ∧
      ((maxCycleDepth < m.config.stack.length ∧ m.next.config.stack = []) ∨
        m.next.config.mark f.name ≠ .unvisited ∧
          ((f.pending = [] ∧ m.next.config.stack = below) ∨
            ∃ dep rest, f.pending = dep :: rest ∧
              (m.next.config.stack = ⟨f.name, rest⟩ :: below ∨
                m.config.mark dep = .unvisited ∧ m.next.config.stack =
                  ⟨dep, g.dependencyNames dep⟩ :: ⟨f.name, rest⟩ :: below)))) ∧
    ∀ (m m' : Moment g) (n : String), m ≤ m' → m.config.mark n ≠ .unvisited → ¬ m'.Pushes n := by
  refine ⟨fun m hsteps => ?_, fun m f below hs => ?_, fun m m' n hle hn hpush => ?_⟩
  · have hend := m.config_eq_search hsteps
    exact ⟨hend ▸ m.stack_search, hend⟩
  · have hmem : f ∈ m.config.stack := hs ▸ List.mem_cons_self
    rw [m.config_next]
    exact ⟨m.potential_step_lt hs, m.pending_isSuffix f hmem, m.step_progress hs⟩
  · exact Moment.mark_ne_unvisited hle hn (m'.mark_of_pushes hpush)

theorem search_terminates_afterPush :
    afterPush.config.stack = [⟨"core", ["util", "ui"]⟩, ⟨"ui", []⟩] ∧
      potential twoLoops afterPush.next.config < potential twoLoops afterPush.config ∧
      ["util", "ui"] <:+ twoLoops.dependencyNames "core" ∧
      afterPush ≤ afterPush.next ∧ afterPush.config.mark "ui" ≠ .unvisited ∧
      ¬ afterPush.next.Pushes "ui" ∧
      Moment.config { afterPush with steps := twoLoops.stepBound } =
        twoLoops.search (twoLoops.surveyAfter []) "ui" := by
  have hs : afterPush.config.stack = [⟨"core", ["util", "ui"]⟩, ⟨"ui", []⟩] := by decide
  have hle : afterPush ≤ afterPush.next := .inr ⟨rfl, Nat.le_succ _⟩
  have hmark : afterPush.config.mark "ui" ≠ .unvisited := by decide
  obtain ⟨hend, hstep, hpush⟩ := search_terminates twoLoops
  obtain ⟨hpotential, hsuffix, -⟩ := hstep afterPush _ _ hs
  refine ⟨hs, hpotential, hsuffix, hle, hmark, hpush _ _ "ui" hle hmark, ?_⟩
  exact (hend { afterPush with steps := twoLoops.stepBound } (Nat.le_refl _)).2

end Layering.Graph
