import Layering.Proofs.Graph.Soundness

/-!
# Every strongly connected part with an arrow has a reported cycle

When a name is left, each of its arrows leads to a name that was left before, or an arrow from it
has closed a cycle (`Settled`); the names on the path of a search that was given up are the only
exceptions. In a strongly connected part with an arrow, each name has an arrow inside the part, so
the first name of the part that is left lies on a cycle that was reported, if only by its key
(`Settled.exists_mem`). The search therefore reports a cycle of each part that no search that was
given up reaches (`cycles_cover`).
-/

namespace Layering.Graph

open Layering.Cycle

variable {g : Graph} {s s' : Traversal} {f : Frame} {below : List Frame}

/-! ## Names in the order in which they are done -/

/-- The names that are done, the latest first. -/
def finished (marks : List (String × Mark)) : List String :=
  (marks.filter (·.2 = .done)).map (·.1)

@[simp] theorem finished_cons_done (n : String) (marks : List (String × Mark)) :
    finished ((n, .done) :: marks) = n :: finished marks := by
  simp [finished]

theorem mem_finished {n : String} {marks : List (String × Mark)}
    (h : (marks.lookup n).getD .unvisited = .done) : n ∈ finished marks := by
  cases hl : marks.lookup n with
  | none => rw [hl] at h; cases h
  | some m =>
    rw [hl, Option.getD_some] at h
    subst h
    obtain ⟨l₁, l₂, rfl, -⟩ := List.lookup_eq_some_iff.mp hl
    simp [finished]

@[simp] theorem finished_enter (n : String) : finished (s.enter n).marks = finished s.marks := by
  unfold Traversal.enter
  split
  · simp [finished, Traversal.setMark]
  · rfl

theorem finished_abandon (s : Traversal) :
    finished s.abandon.marks = s.path.reverse ++ finished s.marks := by
  have hall : ∀ l : List String, finished (l.map (·, .done)) = l := by
    intro l
    induction l with
    | nil => rfl
    | cons n l ih => rw [List.map_cons, finished_cons_done, ih]
  simp only [Traversal.abandon, ← List.map_reverse]
  rw [finished, List.filter_append, List.map_append, ← finished, ← finished, hall]

/-! ## Settled names and explored frames -/

/-- Each name of the list leads only to names after it, unless it is excused. -/
def Settled (g : Graph) (excused : String → Prop) : List String → Prop
  | [] => True
  | u :: rest => (excused u ∨ ∀ v, g.Arrow u v → v ∈ rest) ∧ Settled g excused rest

/-- Each name on the stack leads only to names that are pending in its frame, settled, or above it,
unless it is excused. -/
def Explored (g : Graph) (excused : String → Prop) : (String → Prop) → List Frame → Prop
  | _, [] => True
  | settled, f :: below =>
    (excused f.name ∨ ∀ v, g.Arrow f.name v → v ∈ f.pending ∨ settled v) ∧
      Explored g excused (fun v => settled v ∨ v = f.name) below

variable {excused excused' settled settled' : String → Prop}

theorem Settled.mono {l : List String} (h : Settled g excused l)
    (he : ∀ u, excused u → excused' u) : Settled g excused' l := by
  induction l with
  | nil => trivial
  | cons u rest ih => exact ⟨h.1.imp_left (he u), ih h.2⟩

theorem Settled.append {l l' : List String} (h : Settled g excused l')
    (hl : ∀ u ∈ l, excused u) : Settled g excused (l ++ l') := by
  induction l with
  | nil => exact h
  | cons u rest ih =>
    obtain ⟨hu, hrest⟩ := List.forall_mem_cons.mp hl
    exact ⟨.inl hu, ih hrest⟩

theorem Explored.mono {stack : List Frame} (h : Explored g excused settled stack)
    (he : ∀ u, excused u → excused' u) (hs : ∀ v, settled v → settled' v) :
    Explored g excused' settled' stack := by
  induction stack generalizing settled settled' with
  | nil => trivial
  | cons f below ih =>
    refine ⟨?_, ih h.2 fun v => Or.imp_left (hs v)⟩
    exact h.1.imp (he _) fun hv v harrow => (hv v harrow).imp_right (hs v)

/-- A set of names that each have an arrow inside the set has an excused name, as soon as one of its
names is settled: the one that was settled first. -/
theorem Settled.exists_mem {l : List String} {S : Set String} (h : Settled g excused l)
    (hS : ∀ u ∈ S, ∃ v ∈ S, g.Arrow u v) (hl : ∃ u ∈ l, u ∈ S) : ∃ u ∈ S, excused u := by
  induction l with
  | nil => simp at hl
  | cons u rest ih =>
    by_cases hrest : ∃ v ∈ rest, v ∈ S
    · exact ih h.2 hrest
    · have hu : u ∈ S := by
        obtain ⟨v, hv, hvS⟩ := hl
        rcases List.mem_cons.mp hv with rfl | hv
        · exact hvS
        · exact absurd ⟨v, hv, hvS⟩ hrest
      obtain ⟨v, hv, harrow⟩ := hS u hu
      rcases h.1 with hexc | hout
      · exact ⟨u, hu, hexc⟩
      · exact absurd ⟨v, hout v harrow, hv⟩ hrest

/-! ## What a search covers -/

/-- A name lies on a cycle whose key is that of a reported one. -/
def OnKnownCycle (g : Graph) (cycles : List (List String)) (u : String) : Prop :=
  ∃ c, g.IsCycle c ∧ u ∈ c ∧ key c ∈ cycles.map key

/-- The names that need not be settled during a search: those that were excused before, those that
lie on a known cycle and, if the search was given up, those that its start reaches. -/
def Excused (g : Graph) (before : String → Prop) (start : String) (s : Traversal) (u : String) :
    Prop :=
  before u ∨ (s.abandoned = true ∧ g.Reaches start u) ∨ g.OnKnownCycle s.cycles u

/-- What a search from a start has covered. -/
structure Covered (g : Graph) (before : String → Prop) (start : String) (s : Traversal) : Prop where
  settled : Settled g (Excused g before start s) (finished s.marks)
  explored : Explored g (Excused g before start s) (· ∈ finished s.marks) s.stack
  reached : ∀ n ∈ s.names, g.Reaches start n
  start_mem : s.abandoned = true ∨ start ∈ s.names ∨ start ∈ finished s.marks

variable {before : String → Prop} {start : String}

theorem OnKnownCycle.mono {cycles cycles' : List (List String)} {u : String}
    (h : g.OnKnownCycle cycles u) (hc : cycles ⊆ cycles') : g.OnKnownCycle cycles' u := by
  obtain ⟨c, hcycle, hu, hkey⟩ := h
  exact ⟨c, hcycle, hu, List.map_subset key hc hkey⟩

theorem Covered.leave (h : Covered g before start s) (hs : s.stack = f :: below)
    (hf : f.pending = []) :
    Covered g before start
      { s.setMark f.name .done with stack := below, path := s.path.dropLast } := by
  have hnames := Traversal.names_of_stack_eq hs
  have hfin : finished (s.setMark f.name .done).marks = f.name :: finished s.marks := by
    simp [Traversal.setMark]
  obtain ⟨htop, hbelow⟩ := hs ▸ h.explored
  refine ⟨?_, ?_, fun n hn => h.reached n (by rw [hnames]; exact List.mem_cons_of_mem _ hn), ?_⟩
  · rw [show finished _ = _ from hfin]
    refine ⟨htop.imp_right fun hv v harrow => ?_, h.settled⟩
    exact (hv v harrow).resolve_left (by simp [hf])
  · refine hbelow.mono (fun u hu => hu) fun v hv => ?_
    rw [show finished _ = _ from hfin]
    exact List.mem_cons.mpr hv.symm
  · rw [show finished _ = _ from hfin]
    rcases h.start_mem with hab | hmem | hmem
    · exact .inl hab
    · rcases List.mem_cons.mp (hnames ▸ hmem) with rfl | hmem
      · exact .inr (.inr List.mem_cons_self)
      · exact .inr (.inl hmem)
    · exact .inr (.inr (List.mem_cons_of_mem _ hmem))

theorem Covered.push {dep : String} {rest : List String} (h : Covered g before start s)
    (hs : s.stack = f :: below) (hf : f.pending = dep :: rest) (harrow : g.Arrow f.name dep) :
    Covered g before start
      { s with stack := ⟨dep, g.dependencyNames dep⟩ :: ⟨f.name, rest⟩ :: below } := by
  have hnames := Traversal.names_of_stack_eq hs
  obtain ⟨htop, hbelow⟩ := hs ▸ h.explored
  refine ⟨h.settled, ⟨.inr fun v hv => .inl hv, ?_, ?_⟩, ?_, ?_⟩
  · -- the dependency is no longer pending in the frame, but its own frame is above
    refine htop.imp_right fun hv v hv' => ?_
    rcases hv v hv' with hmem | hfin
    · rcases List.mem_cons.mp (hf ▸ hmem) with rfl | hmem
      · exact .inr (.inr rfl)
      · exact .inl hmem
    · exact .inr (.inl hfin)
  · exact hbelow.mono (fun u hu => hu) fun v => Or.imp_left .inl
  · refine List.forall_mem_cons.mpr ⟨?_, fun n hn => h.reached n (hnames ▸ hn)⟩
    exact (h.reached f.name (by simp [hnames])).tail harrow
  · refine h.start_mem.imp_right (Or.imp_left fun hmem => ?_)
    rw [hnames] at hmem
    exact List.mem_cons_of_mem _ hmem

theorem Covered.skip {dep : String} {rest : List String} (h : Covered g before start s)
    (hs : s.stack = f :: below) (hf : f.pending = dep :: rest) (hdep : s.mark dep = .done) :
    Covered g before start { s with stack := ⟨f.name, rest⟩ :: below } := by
  have hnames := Traversal.names_of_stack_eq hs
  obtain ⟨htop, hbelow⟩ := hs ▸ h.explored
  refine ⟨h.settled, ⟨?_, hbelow⟩, fun n hn => h.reached n (hnames ▸ hn), ?_⟩
  · refine htop.imp_right fun hv v hv' => ?_
    rcases hv v hv' with hmem | hfin
    · rcases List.mem_cons.mp (hf ▸ hmem) with rfl | hmem
      · exact .inr (mem_finished hdep)
      · exact .inl hmem
    · exact .inr hfin
  · refine h.start_mem.imp_right (Or.imp_left fun hmem => ?_)
    rw [hnames] at hmem
    exact hmem

theorem Covered.close {dep : String} {rest : List String} (h : Covered g before start s)
    (he : Entered g s f below) (hf : f.pending = dep :: rest) (hdep : dep ∈ s.path) :
    Covered g before start ({ s with stack := ⟨f.name, rest⟩ :: below }.report dep) := by
  have hnames := he.names_eq
  obtain ⟨-, hbelow⟩ := he.stack_eq ▸ h.explored
  obtain ⟨hcycle, hmem⟩ := he.isCycle_close hdep (he.arrow_of_mem_pending (by simp [hf]))
  have hreport := cycles_report { s with stack := ⟨f.name, rest⟩ :: below } dep
  set t := { s with stack := ⟨f.name, rest⟩ :: below }.report dep with ht
  have hsub : s.cycles ⊆ t.cycles := by
    rcases hreport with ⟨heq, -⟩ | ⟨heq, -⟩
    · rw [heq]; exact List.Subset.refl _
    · rw [heq]; exact List.subset_append_left _ _
  have hknown : g.OnKnownCycle t.cycles f.name := by
    refine ⟨_, hcycle, hmem, ?_⟩
    rcases hreport with ⟨heq, hkey⟩ | ⟨heq, -⟩
    · rw [heq]; exact hkey
    · rw [heq, List.map_append]; simp
  have hexc : ∀ u, Excused g before start s u → Excused g before start t u := fun u =>
    Or.imp_right (Or.imp (by simp [ht]) fun hu => hu.mono hsub)
  have hmarks : t.marks = s.marks := by simp [ht]
  have hstack : t.stack = ⟨f.name, rest⟩ :: below := by simp [ht]
  have hnames' : t.names = s.names := by rw [Traversal.names, hstack, hnames]; rfl
  refine ⟨?_, ?_, ?_, ?_⟩
  · rw [hmarks]
    exact h.settled.mono hexc
  · rw [hmarks, hstack]
    exact ⟨.inl (.inr (.inr hknown)), hbelow.mono hexc fun v hv => hv⟩
  · rw [hnames']
    exact h.reached
  · rw [hnames', hmarks, ht, Traversal.abandoned_report]
    exact h.start_mem

theorem Covered.abandon (h : Covered g before start s) (hc : Coherent g s) :
    Covered g before start s.abandon := by
  have hpath : s.path ⊆ s.names := by
    rcases hc.path with hpath | ⟨n, rest, hn, -, hpath⟩
    · rw [hpath]; exact fun n hn => List.mem_reverse.mp hn
    · rw [hpath, hn]; exact fun k hk => List.mem_cons_of_mem _ (List.mem_reverse.mp hk)
  refine ⟨?_, trivial, by simp [Traversal.names, Traversal.abandon], .inl rfl⟩
  rw [finished_abandon]
  refine (h.settled.mono fun u => Or.imp_right (Or.imp_left fun hu => ⟨rfl, hu.2⟩)).append ?_
  intro u hu
  exact .inr (.inl ⟨rfl, h.reached u (hpath (List.mem_reverse.mp hu))⟩)

theorem kept_covered (g : Graph) (before : String → Prop) (start : String) :
    Kept g (Covered g before start) where
  enter := fun {s f below} _ _ h => by
    have hexc : Excused g before start (s.enter f.name) = Excused g before start s := by
      funext u
      simp [Excused]
    refine ⟨?_, ?_, ?_, ?_⟩
    · simpa [hexc] using h.settled
    · simpa [hexc] using h.explored
    · simpa using h.reached
    · simpa using h.start_mem
  move := fun {s f below s'} he hm h => by
    cases hm with
    | leave hf => exact h.leave he.stack_eq hf
    | push hf hdep => exact h.push he.stack_eq hf (he.arrow_of_mem_pending (by simp [hf]))
    | skip hf hdep => exact h.skip he.stack_eq hf hdep
    | close hf hdep => exact h.close he hf hdep
  abandon := fun hc _ h => h.abandon hc

/-! ## What a survey covers -/

/-- The starts, in order, whose search is given up. -/
def abandonedFrom (g : Graph) : Survey → List String → List String
  | _, [] => []
  | v, start :: starts =>
    (if v.abandoned < (g.visit v start).abandoned then [start] else []) ++
      g.abandonedFrom (g.visit v start) starts

/-- The starts whose search for cycles is given up. -/
def abandonedStarts (g : Graph) : List String :=
  g.abandonedFrom ⟨[], [], 0⟩ (g.components.map (·.name))

/-- The names that need not be settled between two searches. -/
def Excepted (g : Graph) (before : String → Prop) (v : Survey) (u : String) : Prop :=
  before u ∨ g.OnKnownCycle v.cycles u

variable {v : Survey} {starts : List String}

theorem covered_startAt (h : Settled g (Excepted g before v) (finished v.marks)) :
    Covered g before start (g.startAt v start) where
  settled := h.mono fun _ => Or.imp_right .inr
  explored := ⟨.inr fun _ harrow => .inl harrow, trivial⟩
  reached := fun n hn => by
    obtain rfl := List.mem_singleton.mp hn
    exact .refl
  start_mem := .inr (.inl List.mem_cons_self)

/-- Marks are only added. -/
theorem kept_suffix_marks (g : Graph) (marks : List (String × Mark)) :
    Kept g fun s => marks <:+ s.marks where
  enter := fun {s f below} _ _ h => by
    unfold Traversal.enter
    split
    · exact h.trans (List.suffix_cons _ _)
    · exact h
  move := fun _ hm h => by
    cases hm with
    | leave hf => exact h.trans (List.suffix_cons _ _)
    | push hf hdep => exact h
    | skip hf hdep => exact h
    | close hf hdep => simpa using h
  abandon := fun _ _ h => h.trans (List.suffix_append _ _)

theorem finished_subset {marks marks' : List (String × Mark)} (h : marks <:+ marks') :
    finished marks ⊆ finished marks' :=
  List.map_subset _ (h.sublist.filter _).subset

theorem suffix_marks_visit (hv : v.IsQuiet) (hstart : (g.component? start).isSome)
    (hs : IsSearched v start) : v.marks <:+ (g.visit v start).marks := by
  rw [visit_of_isSearched hs]
  exact (search_end (kept_suffix_marks g v.marks) hv hs hstart (List.suffix_refl _)).2.2

theorem abandoned_visit (hs : IsSearched v start) :
    v.abandoned < (g.visit v start).abandoned ↔ (g.search v start).abandoned = true := by
  rw [visit_of_isSearched hs]
  by_cases h : (g.search v start).abandoned = true <;> simp [h]

/-- A visit settles its start, unless its search is given up. -/
theorem settled_visit (hv : v.IsQuiet) (hstart : (g.component? start).isSome)
    (hs : IsSearched v start) (h : Settled g (Excepted g before v) (finished v.marks)) :
    Settled g (Excepted g (fun u => before u ∨
        (v.abandoned < (g.visit v start).abandoned ∧ g.Reaches start u)) (g.visit v start))
      (finished (g.visit v start).marks) ∧
      (v.abandoned < (g.visit v start).abandoned ∨ start ∈ finished (g.visit v start).marks) := by
  obtain ⟨hend, -, hcov⟩ :=
    search_end (kept_covered g before start) hv hs hstart (covered_startAt h)
  rw [abandoned_visit hs, visit_of_isSearched hs]
  refine ⟨hcov.settled.mono fun u => or_assoc.mpr, hcov.start_mem.imp_right fun hmem => ?_⟩
  exact hmem.resolve_left (by simp [Traversal.names, hend])

/-- After the visits of any starts, each name that is done leads only to names that were done before
it, unless it lies on a known cycle or is reached from a start whose search was given up. -/
theorem settled_foldl_visit (hstarts : starts ⊆ g.components.map (·.name)) (hv : v.IsQuiet)
    (h : Settled g (Excepted g before v) (finished v.marks)) :
    Settled g
        (Excepted g (fun u => before u ∨ ∃ a ∈ g.abandonedFrom v starts, g.Reaches a u)
          (starts.foldl g.visit v))
        (finished (starts.foldl g.visit v).marks) ∧
      (∀ n ∈ starts, n ≠ "" →
        n ∈ g.abandonedFrom v starts ∨ n ∈ finished (starts.foldl g.visit v).marks) ∧
      finished v.marks ⊆ finished (starts.foldl g.visit v).marks := by
  induction starts generalizing v before with
  | nil =>
    refine ⟨h.mono fun u => Or.imp_left .inl, by simp, List.Subset.refl _⟩
  | cons start starts ih =>
    obtain ⟨hmem, hrest⟩ := List.cons_subset.mp hstarts
    rw [List.foldl_cons, abandonedFrom]
    have hquiet := isQuiet_visit hv hmem
    by_cases hs : IsSearched v start
    · have hsome := isSome_component?_iff.mpr ⟨hs.1, hmem⟩
      obtain ⟨hset, hdone⟩ := settled_visit hv hsome hs h
      obtain ⟨hset', hdone', hsub⟩ := ih hrest hquiet hset
      refine ⟨hset'.mono fun u => Or.imp_left ?_, ?_, ?_⟩
      · rintro ((hu | ⟨hab, hu⟩) | ⟨a, ha, hu⟩)
        · exact .inl hu
        · exact .inr ⟨start, List.mem_append_left _ (by simp [hab]), hu⟩
        · exact .inr ⟨a, List.mem_append_right _ ha, hu⟩
      · refine List.forall_mem_cons.mpr ⟨fun _ => ?_, fun n hn hne => ?_⟩
        · exact hdone.imp (fun hab => List.mem_append_left _ (by simp [hab])) fun hfin => hsub hfin
        · exact (hdone' n hn hne).imp_left (List.mem_append_right _)
      · exact fun n hn => hsub (finished_subset (suffix_marks_visit hv hsome hs) hn)
    · rw [visit_of_not_isSearched hs] at *
      obtain ⟨hset', hdone', hsub⟩ := ih hrest hquiet h
      simp only [lt_irrefl, if_false, List.nil_append]
      refine ⟨hset', List.forall_mem_cons.mpr ⟨fun hne => ?_, hdone'⟩, hsub⟩
      have hmark : v.mark start = .done := by
        by_contra hno
        exact hs ⟨hne, hno⟩
      exact .inr (hsub (mem_finished hmark))

/-! ## Searches that are given up -/

theorem abandoned_foldl_visit (v : Survey) (starts : List String) :
    (starts.foldl g.visit v).abandoned = v.abandoned + (g.abandonedFrom v starts).length := by
  induction starts generalizing v with
  | nil => simp [abandonedFrom]
  | cons start starts ih =>
    have hvisit : (g.visit v start).abandoned = v.abandoned ∨
        (g.visit v start).abandoned = v.abandoned + 1 := by
      by_cases hs : IsSearched v start
      · rw [visit_of_isSearched hs]
        by_cases hab : (g.search v start).abandoned = true <;> simp [hab]
      · exact .inl (by rw [visit_of_not_isSearched hs])
    rw [List.foldl_cons, ih, abandonedFrom, List.length_append]
    rcases hvisit with heq | heq
    · simp [heq]
    · simp [heq]
      omega

/-- A search that is given up leaves one warning. -/
theorem snd_cycles_eq (g : Graph) :
    g.cycles.2 = g.abandonedStarts.map fun _ => .depthExceeded maxCycleDepth := by
  have hcount := abandoned_foldl_visit (g := g) ⟨[], [], 0⟩ (g.components.map (·.name))
  rw [Nat.zero_add] at hcount
  rw [List.map_const', abandonedStarts, ← hcount]
  rfl

/-- The names on the stack are names of components that differ from each other. -/
theorem Coherent.length_stack_le (h : Coherent g s) : s.stack.length ≤ g.nameSet.card := by
  have hsub : s.names.toFinset ⊆ g.nameSet := fun n hn =>
    mem_nameSet.mpr (h.indexed n (List.mem_toFinset.mp hn))
  have hlen : s.names.length = s.stack.length := List.length_map _
  rw [← hlen, ← List.toFinset_card_of_nodup h.nodup]
  exact Finset.card_le_card hsub

theorem kept_ongoing (hg : g.nameSet.card ≤ maxCycleDepth) :
    Kept g fun s => s.abandoned = false where
  enter := fun _ _ h => by simpa using h
  move := fun he hm _ => (he.coherent_move hm).ongoing
  abandon := fun hc hdeep _ => by
    have := hc.length_stack_le
    omega

/-- No search is given up in a graph with few names. -/
theorem abandonedStarts_eq_nil (hg : g.nameSet.card ≤ maxCycleDepth) : g.abandonedStarts = [] := by
  have hcount := abandoned_foldl_visit (g := g) ⟨[], [], 0⟩ (g.components.map (·.name))
  have hzero := foldl_visit (g := g) (v := ⟨[], [], 0⟩) (Q := fun v => v.abandoned = 0)
    (List.Subset.refl _) (fun n => by simp [Survey.mark]) rfl ?_
  · rw [hzero.2, Nat.zero_add] at hcount
    exact List.eq_nil_of_length_eq_zero hcount.symm
  · intro v start hv hstart hs hQ
    have hongoing := (search_end (kept_ongoing hg) hv hs hstart rfl).2.2
    rw [visit_of_isSearched hs]
    simpa [hongoing] using hQ

/-! ## Coverage -/

/-- A part that no search that was given up reaches has a reported cycle, if only by its key. -/
theorem exists_cycle_of_arrow {w u v : String} (hu : u ∈ g.strongPart w) (hv : v ∈ g.strongPart w)
    (harrow : g.Arrow u v)
    (hsearched : ∀ n ∈ g.strongPart w, ∀ start ∈ g.abandonedStarts, ¬ g.Reaches start n) :
    ∃ c, g.IsCycle c ∧ (∀ n ∈ c, n ∈ g.strongPart w) ∧ ∃ r ∈ g.cycles.1, key r = key c := by
  have hempty : Settled g (Excepted g (fun _ => False) ⟨[], [], 0⟩) (finished []) := trivial
  obtain ⟨hset, hdone, -⟩ := settled_foldl_visit (v := ⟨[], [], 0⟩) (List.Subset.refl _)
    (fun n => by simp [Survey.mark]) hempty
  have hinside : ∀ x ∈ g.strongPart w, ∃ y ∈ g.strongPart w, g.Arrow x y := fun x hx =>
    exists_arrow_of_mem_strongPart hu hv harrow hx
  have hfin : u ∈ finished g.survey.marks := by
    obtain ⟨hne, hmem⟩ := isSome_component?_iff.mp harrow.isSome_left
    exact (hdone u hmem hne).resolve_left fun hab => hsearched u hu u hab .refl
  obtain ⟨x, hx, hexc⟩ := hset.exists_mem hinside ⟨u, hfin, hu⟩
  rcases hexc with (hfalse | ⟨a, ha, hax⟩) | ⟨c, hc, hxc, hkey⟩
  · exact hfalse.elim
  · exact absurd hax (hsearched x hx a ha)
  · obtain ⟨r, hr, hrc⟩ := List.mem_map.mp hkey
    refine ⟨c, hc, fun n hn => ?_, r, hr, hrc⟩
    rw [← strongPart_eq_of_mem hx]
    exact hc.mem_strongPart hxc hn

theorem exists_arrow_of_ne {w u v : String} (hu : u ∈ g.strongPart w) (hv : v ∈ g.strongPart w)
    (hne : u ≠ v) : ∃ y ∈ g.strongPart w, g.Arrow u y := by
  have huv : g.Reaches u v := hu.2.trans hv.1
  rcases Relation.ReflTransGen.cases_head huv with heq | ⟨y, huy, hyv⟩
  · exact absurd heq hne
  · exact ⟨y, ⟨hu.1.tail huy, hyv.trans hv.2⟩, huy⟩

/-- **The search finds a cycle of every strongly connected part with an arrow** that it can finish.
Unless one of its names is reached from a start whose search was given up, a part with two names, or
with an arrow from a name to itself, has a cycle with the key of a reported one. In particular, when
no search is given up, no cycle is reported exactly when there is none; and in a graph with at most
`maxCycleDepth` names no search is given up. Each search that is given up leaves a warning. -/
theorem cycles_cover (g : Graph) :
    (∀ w, (∃ u ∈ g.strongPart w, ∃ v ∈ g.strongPart w, u ≠ v ∨ g.Arrow u v) →
      (∀ n ∈ g.strongPart w, ∀ start ∈ g.abandonedStarts, ¬ g.Reaches start n) →
        ∃ c, g.IsCycle c ∧ (∀ n ∈ c, n ∈ g.strongPart w) ∧ ∃ r ∈ g.cycles.1, key r = key c) ∧
      (g.abandonedStarts = [] → (g.cycles.1 = [] ↔ ∀ u, ¬ Relation.TransGen g.Arrow u u)) ∧
      (g.nameSet.card ≤ maxCycleDepth → g.abandonedStarts = []) ∧
      g.cycles.2 = g.abandonedStarts.map fun _ => .depthExceeded maxCycleDepth := by
  refine ⟨?_, fun hnone => ⟨?_, ?_⟩, abandonedStarts_eq_nil, g.snd_cycles_eq⟩
  · rintro w ⟨u, hu, v, hv, hne | harrow⟩ hsearched
    · obtain ⟨y, hy, huy⟩ := exists_arrow_of_ne hu hv hne
      exact exists_cycle_of_arrow hu hy huy hsearched
    · exact exists_cycle_of_arrow hu hv harrow hsearched
  · intro hcycles u hloop
    obtain ⟨y, huy, hyu⟩ := Relation.TransGen.head'_iff.mp hloop
    obtain ⟨c, -, -, r, hr, -⟩ := exists_cycle_of_arrow (self_mem_strongPart u)
      ⟨.single huy, hyu⟩ huy (by simp [hnone])
    rw [hcycles] at hr
    cases hr
  · intro hacyclic
    refine List.eq_nil_iff_forall_not_mem.mpr fun c hc => ?_
    have hcycle := g.reported_cycles.1 c hc
    obtain ⟨n, hn⟩ := List.exists_mem_of_length_pos (by have := hcycle.two_le; omega : 0 < c.length)
    exact hacyclic n (hcycle.transGen_self hn)

theorem cycles_cover_twoLoops :
    twoLoops.nameSet.card ≤ maxCycleDepth ∧ twoLoops.abandonedStarts = [] ∧
      ∃ c, twoLoops.IsCycle c ∧ (∀ n ∈ c, n ∈ twoLoops.strongPart "ui") ∧
        ∃ r ∈ twoLoops.cycles.1, key r = key c := by
  have hcard : twoLoops.nameSet.card ≤ maxCycleDepth := by decide
  obtain ⟨hcover, -, hfew, -⟩ := cycles_cover twoLoops
  have hnone := hfew hcard
  have hthere : twoLoops.Reaches "ui" "core" := .single (by decide)
  have hback : twoLoops.Reaches "core" "ui" := .single (by decide)
  exact ⟨hcard, hnone, hcover "ui"
    ⟨"ui", self_mem_strongPart _, "core", ⟨hthere, hback⟩, .inr (by decide)⟩ (by simp [hnone])⟩

end Layering.Graph
