import Layering.Proofs.Graph.Arrow
import Mathlib.Data.List.Nodup

/-!
# The search for cycles, step by step

A step of the search first enters the name of its top frame and then makes one of four moves: it
leaves the frame, pushes a dependency that was not visited, skips one that is done, or closes a
cycle with one that is being visited (`step_cases`). Before each step the search is coherent
(`Coherent`): the names on the stack differ from each other, each is a dependency of the one below
it, the path holds the names of the stack from the bottom on, where the top one may be missing as
long as it was not entered, and the names with the mark `visiting` are those on the path.

What a search keeps is proved by `Kept.run`: a property that entering, moving and giving up keep
holds when the search ends.
-/

namespace Layering.Cycle.Traversal

variable {s : Traversal}

/-! ## Marks -/

/-- The names on the stack, the latest first. -/
def names (s : Traversal) : List String := s.stack.map (·.name)

theorem names_of_stack_eq {f : Frame} {below : List Frame} (hs : s.stack = f :: below) :
    s.names = f.name :: below.map (·.name) := by
  rw [names, hs, List.map_cons]

@[simp] theorem mark_setMark (n k : String) (m : Mark) :
    (s.setMark n m).mark k = if k = n then m else s.mark k := by
  unfold mark setMark
  rw [List.lookup_cons]
  by_cases h : k = n
  · simp [h]
  · simp [h, beq_eq_false_iff_ne.mpr h]

theorem mark_enter (n k : String) :
    (s.enter n).mark k = if k = n ∧ s.mark n = .unvisited then .visiting else s.mark k := by
  unfold enter
  split
  · rename_i h
    change (s.setMark n .visiting).mark k = _
    simp [h]
  · rename_i h
    simp [h]

@[simp] theorem stack_enter (n : String) : (s.enter n).stack = s.stack := by
  unfold enter; split <;> rfl

@[simp] theorem names_enter (n : String) : (s.enter n).names = s.names := by
  simp [names]

@[simp] theorem cycles_enter (n : String) : (s.enter n).cycles = s.cycles := by
  unfold enter; split <;> rfl

@[simp] theorem abandoned_enter (n : String) : (s.enter n).abandoned = s.abandoned := by
  unfold enter; split <;> rfl

@[simp] theorem stack_report (n : String) : (s.report n).stack = s.stack := by
  unfold report; dsimp only; split <;> rfl

@[simp] theorem path_report (n : String) : (s.report n).path = s.path := by
  unfold report; dsimp only; split <;> rfl

@[simp] theorem marks_report (n : String) : (s.report n).marks = s.marks := by
  unfold report; dsimp only; split <;> rfl

@[simp] theorem abandoned_report (n : String) : (s.report n).abandoned = s.abandoned := by
  unfold report; dsimp only; split <;> rfl

@[simp] theorem names_report (n : String) : (s.report n).names = s.names := by
  simp [names]

@[simp] theorem mark_report (n k : String) : (s.report n).mark k = s.mark k := by
  simp [mark]

/-- Giving up marks the names on the path as done and leaves all other marks as they were. -/
theorem mark_abandon (k : String) :
    s.abandon.mark k = if k ∈ s.path then .done else s.mark k := by
  have hlookup : ∀ (l : List String) (rest : List (String × Mark)),
      ((l.map (·, Mark.done)) ++ rest).lookup k = if k ∈ l then some .done else rest.lookup k := by
    intro l rest
    induction l with
    | nil => simp
    | cons a l ih =>
      rw [List.map_cons, List.cons_append, List.lookup_cons, ih]
      by_cases h : k = a
      · simp [h]
      · simp [h, beq_eq_false_iff_ne.mpr h]
  unfold mark abandon
  rw [← List.map_reverse]
  simp only [hlookup, List.mem_reverse]
  split <;> rfl

end Layering.Cycle.Traversal

namespace Layering.Graph

open Layering.Cycle

variable {g : Graph} {s s' : Traversal} {f : Frame} {below : List Frame}

/-! ## Coherence -/

/-- What holds of a search before each of its steps. -/
structure Coherent (g : Graph) (s : Traversal) : Prop where
  nodup : s.names.Nodup
  linked : s.names.IsChain fun u v => g.Arrow v u
  indexed : ∀ n ∈ s.names, (g.component? n).isSome
  pending : ∀ f ∈ s.stack, f.pending ⊆ g.dependencyNames f.name
  path : s.path = s.names.reverse ∨
    ∃ n rest, s.names = n :: rest ∧ s.mark n = .unvisited ∧ s.path = rest.reverse
  visiting : ∀ n, s.mark n = .visiting ↔ n ∈ s.path
  ongoing : s.abandoned = false

/-- A coherent search whose top frame is entered. -/
structure Entered (g : Graph) (s : Traversal) (f : Frame) (below : List Frame) : Prop
    extends Coherent g s where
  stack_eq : s.stack = f :: below
  path_eq : s.path = s.names.reverse

theorem Coherent.enter (h : Coherent g s) (hs : s.stack = f :: below) :
    Entered g (s.enter f.name) f below := by
  have hnames := Traversal.names_of_stack_eq hs
  rcases h.path with hpath | ⟨n, rest, hn, hmark, hpath⟩
  · -- the top name is on the path, so it was entered before
    have hmark : s.mark f.name = .visiting := by
      rw [h.visiting, hpath, hnames]
      simp
    have hsame : s.enter f.name = s := by simp [Traversal.enter, hmark]
    rw [hsame]
    exact { h with stack_eq := hs, path_eq := hpath }
  · obtain ⟨rfl, rfl⟩ := List.cons.inj (hn.symm.trans hnames)
    have hpath' : (s.enter f.name).path = s.names.reverse := by
      simp [Traversal.enter, hmark, hpath, hnames, Traversal.setMark]
    refine { nodup := by simpa using h.nodup
             linked := by simpa using h.linked
             indexed := by simpa using h.indexed
             pending := by simpa using h.pending
             path := .inl (by simpa using hpath')
             visiting := fun k => ?_
             ongoing := by simpa using h.ongoing
             stack_eq := by simpa using hs
             path_eq := by simpa using hpath' }
    rw [Traversal.mark_enter, hpath', hnames, List.reverse_cons, List.mem_append, ← hpath,
      List.mem_singleton]
    by_cases hk : k = f.name
    · simp [hk, hmark]
    · simp [hk, h.visiting]

namespace Entered

theorem names_eq (h : Entered g s f below) : s.names = f.name :: below.map (·.name) :=
  Traversal.names_of_stack_eq h.stack_eq

theorem path_eq_append (h : Entered g s f below) :
    s.path = (below.map (·.name)).reverse ++ [f.name] := by
  rw [h.path_eq, h.names_eq, List.reverse_cons]

theorem mark_eq_visiting_iff (h : Entered g s f below) {n : String} :
    s.mark n = .visiting ↔ n ∈ s.names := by
  rw [h.visiting, h.path_eq, List.mem_reverse]

theorem arrow_of_mem_pending (h : Entered g s f below) {dep : String} (hd : dep ∈ f.pending) :
    g.Arrow f.name dep :=
  h.pending f (by rw [h.stack_eq]; exact List.mem_cons_self) hd

/-- The path is a walk along arrows. -/
theorem isChain_path (h : Entered g s f below) : s.path.IsChain g.Arrow := by
  rw [h.path_eq, List.isChain_reverse]
  exact h.linked

theorem nodup_path (h : Entered g s f below) : s.path.Nodup := by
  rw [h.path_eq, List.nodup_reverse]
  exact h.nodup

end Entered

/-! ## Moves -/

/-- What a search can do once its top frame is entered. -/
inductive Move (g : Graph) (s : Traversal) (f : Frame) (below : List Frame) : Traversal → Prop
  | leave (hf : f.pending = []) :
      Move g s f below
        { s.setMark f.name .done with stack := below, path := s.path.dropLast }
  | push {dep : String} {rest : List String} (hf : f.pending = dep :: rest)
      (hdep : s.mark dep = .unvisited) :
      Move g s f below
        { s with stack := ⟨dep, g.dependencyNames dep⟩ :: ⟨f.name, rest⟩ :: below }
  | skip {dep : String} {rest : List String} (hf : f.pending = dep :: rest)
      (hdep : s.mark dep = .done) :
      Move g s f below { s with stack := ⟨f.name, rest⟩ :: below }
  | close {dep : String} {rest : List String} (hf : f.pending = dep :: rest)
      (hdep : dep ∈ s.path) :
      Move g s f below ({ s with stack := ⟨f.name, rest⟩ :: below }.report dep)

theorem step_of_deep (hs : s.stack = f :: below) (hdeep : maxCycleDepth < s.stack.length) :
    g.step s = s.abandon := by
  rw [hs] at hdeep
  simp [step, hs, List.length_cons ▸ hdeep]

theorem step_of_pending_nil (hs : s.stack = f :: below) (hdeep : s.stack.length ≤ maxCycleDepth)
    (hf : f.pending = []) :
    g.step s = { (s.enter f.name).setMark f.name .done with
      stack := below, path := (s.enter f.name).path.dropLast } := by
  rw [hs] at hdeep
  simp [step, hs, hf, Nat.not_lt.mpr (List.length_cons ▸ hdeep)]

theorem step_of_pending_cons {dep : String} {rest : List String} (hs : s.stack = f :: below)
    (hdeep : s.stack.length ≤ maxCycleDepth) (hf : f.pending = dep :: rest) :
    g.step s = g.follow { s.enter f.name with stack := ⟨f.name, rest⟩ :: below } dep := by
  rw [hs] at hdeep
  simp [step, hs, hf, Nat.not_lt.mpr (List.length_cons ▸ hdeep)]

theorem follow_of_unvisited {dep : String} (hd : (g.component? dep).isSome)
    (hm : s.mark dep = .unvisited) :
    g.follow s dep = { s with stack := ⟨dep, g.dependencyNames dep⟩ :: s.stack } := by
  simp [follow, hm, Option.isSome_iff_ne_none.mp hd]

theorem follow_of_done {dep : String} (hm : s.mark dep = .done) : g.follow s dep = s := by
  simp [follow, hm]

theorem follow_of_mem_path {dep : String} (hd : (g.component? dep).isSome)
    (hm : s.mark dep = .visiting) (hp : dep ∈ s.path) : g.follow s dep = s.report dep := by
  simp [follow, hm, hp, Option.isSome_iff_ne_none.mp hd]

/-- A step gives the search up when the stack is too deep; otherwise it enters the top frame and
makes a move. -/
theorem step_cases (h : Coherent g s) (hs : s.stack = f :: below) :
    (maxCycleDepth < s.stack.length ∧ g.step s = s.abandon) ∨
      (s.stack.length ≤ maxCycleDepth ∧ Move g (s.enter f.name) f below (g.step s)) := by
  rcases Nat.lt_or_ge maxCycleDepth s.stack.length with hdeep | hdeep
  · exact .inl ⟨hdeep, step_of_deep hs hdeep⟩
  · refine .inr ⟨hdeep, ?_⟩
    have he := h.enter hs
    cases hf : f.pending with
    | nil =>
      rw [step_of_pending_nil hs hdeep hf]
      exact .leave hf
    | cons dep rest =>
      have harrow : g.Arrow f.name dep := he.arrow_of_mem_pending (by simp [hf])
      rw [step_of_pending_cons hs hdeep hf]
      cases hmark : (s.enter f.name).mark dep with
      | unvisited =>
        rw [follow_of_unvisited harrow.isSome_right (by exact hmark)]
        exact .push hf hmark
      | done =>
        rw [follow_of_done (by exact hmark)]
        exact .skip hf hmark
      | visiting =>
        have hpath : dep ∈ (s.enter f.name).path := (he.visiting dep).mp hmark
        rw [follow_of_mem_path harrow.isSome_right (by exact hmark) (by exact hpath)]
        exact .close hf hpath

/-! ## Moves keep a search coherent -/

namespace Entered

theorem coherent_leave (h : Entered g s f below) :
    Coherent g { s.setMark f.name .done with stack := below, path := s.path.dropLast } := by
  have hnames := h.names_eq
  have hpath : s.path.dropLast = (below.map (·.name)).reverse := by
    rw [h.path_eq_append, List.dropLast_concat]
  have hnodup : f.name ∉ below.map (·.name) := (List.nodup_cons.mp (hnames ▸ h.nodup)).1
  refine { nodup := (List.nodup_cons.mp (hnames ▸ h.nodup)).2
           linked := List.IsChain.tail (hnames ▸ h.linked)
           indexed := fun n hn => h.indexed n (by rw [hnames]; exact List.mem_cons_of_mem _ hn)
           pending := fun e he => h.pending e (by rw [h.stack_eq]; exact List.mem_cons_of_mem _ he)
           path := .inl hpath
           visiting := fun n => ?_
           ongoing := h.ongoing }
  change (s.setMark f.name .done).mark n = .visiting ↔ n ∈ s.path.dropLast
  rw [Traversal.mark_setMark, hpath, List.mem_reverse]
  by_cases hn : n = f.name
  · simpa [hn] using hnodup
  · rw [if_neg hn, h.mark_eq_visiting_iff, hnames, List.mem_cons]
    exact ⟨fun hmem => hmem.resolve_left hn, .inr⟩

/-- Taking a dependency off the top frame. -/
theorem coherent_advance {dep : String} {rest : List String} (h : Entered g s f below)
    (hf : f.pending = dep :: rest) :
    Entered g { s with stack := ⟨f.name, rest⟩ :: below } ⟨f.name, rest⟩ below := by
  have hnames : Traversal.names { s with stack := ⟨f.name, rest⟩ :: below } = s.names :=
    h.names_eq.symm
  refine { nodup := hnames ▸ h.nodup
           linked := hnames ▸ h.linked
           indexed := hnames ▸ h.indexed
           pending := fun e he => ?_
           path := .inl (hnames ▸ h.path_eq)
           visiting := h.visiting
           ongoing := h.ongoing
           stack_eq := rfl
           path_eq := hnames ▸ h.path_eq }
  rcases List.mem_cons.mp he with rfl | he
  · exact fun d hd => h.arrow_of_mem_pending (by rw [hf]; exact List.mem_cons_of_mem _ hd)
  · exact h.pending e (by rw [h.stack_eq]; exact List.mem_cons_of_mem _ he)

theorem coherent_push {dep : String} (h : Entered g s f below) (harrow : g.Arrow f.name dep)
    (hdep : s.mark dep = .unvisited) :
    Coherent g { s with stack := ⟨dep, g.dependencyNames dep⟩ :: s.stack } := by
  have hnotin : dep ∉ s.names := by
    intro hmem
    rw [← h.mark_eq_visiting_iff, hdep] at hmem
    cases hmem
  exact { nodup := List.nodup_cons.mpr ⟨hnotin, h.nodup⟩
          linked := by
            have hlinked := h.linked
            rw [h.names_eq] at hlinked
            change (dep :: s.names).IsChain _
            rw [h.names_eq]
            exact .cons_cons harrow hlinked
          indexed := List.forall_mem_cons.mpr ⟨harrow.isSome_right, h.indexed⟩
          pending := List.forall_mem_cons.mpr ⟨List.Subset.refl _, h.pending⟩
          path := .inr ⟨dep, s.names, rfl, hdep, h.path_eq⟩
          visiting := h.visiting
          ongoing := h.ongoing }

theorem coherent_report (h : Entered g s f below) (dep : String) : Coherent g (s.report dep) where
  nodup := by simpa using h.nodup
  linked := by simpa using h.linked
  indexed := by simpa using h.indexed
  pending := by simpa using h.pending
  path := .inl (by simpa using h.path_eq)
  visiting := by simpa using h.visiting
  ongoing := by simpa using h.ongoing

theorem coherent_move (h : Entered g s f below) (hm : Move g s f below s') : Coherent g s' := by
  cases hm with
  | leave hf => exact h.coherent_leave
  | push hf hdep =>
    exact (h.coherent_advance hf).coherent_push (h.arrow_of_mem_pending (by simp [hf])) hdep
  | skip hf hdep => exact (h.coherent_advance hf).toCoherent
  | close hf hdep => exact (h.coherent_advance hf).coherent_report _

end Entered

/-! ## Runs -/

/-- A search that was given up: no frame and no name that is being visited are left. -/
structure GivenUp (s : Traversal) : Prop where
  stack_eq : s.stack = []
  abandoned : s.abandoned = true
  visiting : ∀ n, s.mark n ≠ .visiting

theorem Coherent.givenUp (h : Coherent g s) : GivenUp s.abandon where
  stack_eq := rfl
  abandoned := rfl
  visiting := fun n => by
    rw [Traversal.mark_abandon]
    split
    · simp
    · rename_i hn
      rwa [Ne, h.visiting]

/-- A property of searches that entering, moving and giving up keep. -/
structure Kept (g : Graph) (P : Traversal → Prop) : Prop where
  enter : ∀ {s f below}, Coherent g s → s.stack = f :: below → P s → P (s.enter f.name)
  move : ∀ {s f below s'}, Entered g s f below → Move g s f below s' → P s → P s'
  abandon : ∀ {s}, Coherent g s → maxCycleDepth < s.stack.length → P s → P s.abandon

theorem run_of_stack_eq_nil (fuel : ℕ) (hs : s.stack = []) : g.run fuel s = s := by
  cases fuel <;> simp [run, hs]

theorem run_succ_of_stack_eq_cons (fuel : ℕ) (hs : s.stack = f :: below) :
    g.run (fuel + 1) s = g.run fuel (g.step s) := by
  simp [run, hs]

/-- **What a search keeps holds when it ends**, and a search that was not given up ends coherent. -/
theorem Kept.run {P : Traversal → Prop} (hP : Kept g P) (fuel : ℕ) (h : Coherent g s) (hs : P s) :
    (Coherent g (g.run fuel s) ∨ GivenUp (g.run fuel s)) ∧ P (g.run fuel s) := by
  induction fuel generalizing s with
  | zero => exact ⟨.inl h, hs⟩
  | succ fuel ih =>
    rcases hstack : s.stack with _ | ⟨f, below⟩
    · rw [run_of_stack_eq_nil _ hstack]
      exact ⟨.inl h, hs⟩
    · rw [run_succ_of_stack_eq_cons fuel hstack]
      rcases step_cases h hstack with ⟨hdeep, hstep⟩ | ⟨-, hmove⟩
      · rw [hstep, run_of_stack_eq_nil _ rfl]
        exact ⟨.inr h.givenUp, hP.abandon h hdeep hs⟩
      · have he := h.enter hstack
        exact ih (he.coherent_move hmove) (hP.move he hmove (hP.enter h hstack hs))

end Layering.Graph
