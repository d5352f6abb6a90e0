import Layering.Proofs.Graph.Coverage

/-!
# Arrows that close cycles

The search reports a cycle for an arrow that leads back to a name on its path, and it follows each
arrow once: no two reported cycles are closed by the same arrow (`pairwise_cycles`). When no search
is given up, each arrow that closes no cycle leads to a name that is done before the name it comes
from (`descends_survey`). The arrows of a cycle cannot all do so, hence every cycle passes along an
arrow that closes a reported one, if only by its key. A cycle that shares no arrow with another is
therefore reported; one that does need not be (`cycles_meet_every_cycle`).
-/

namespace Layering.Graph

open Layering.Cycle

variable {g : Graph} {s s' : Traversal} {f : Frame} {below : List Frame}

/-! ## Known cycles and the arrows that close them -/

/-- An arrow closes a cycle whose key is that of a reported one. -/
def ClosesKnown (g : Graph) (cycles : List (List String)) (u v : String) : Prop :=
  ∃ c, g.IsCycle c ∧ [u, v] <:+ c ∧ key c ∈ cycles.map key

theorem ClosesKnown.mono {cycles cycles' : List (List String)} {u v : String}
    (h : g.ClosesKnown cycles u v) (hc : cycles ⊆ cycles') : g.ClosesKnown cycles' u v := by
  obtain ⟨c, hcycle, hlast, hkey⟩ := h
  exact ⟨c, hcycle, hlast, List.map_subset key hc hkey⟩

theorem cycles_subset_report (s : Traversal) (n : String) : s.cycles ⊆ (s.report n).cycles := by
  rcases cycles_report s n with ⟨heq, -⟩ | ⟨heq, -⟩
  · rw [heq]; exact List.Subset.refl _
  · rw [heq]; exact List.subset_append_left _ _

/-- What is cut out of the path by an arrow back to one of its names: it begins with that name and
ends with the name of the top frame. -/
theorem Entered.exists_cut (h : Entered g s f below) {dep : String} (hdep : dep ∈ s.path) :
    ∃ front nodes, s.path = front ++ nodes ∧ s.path.dropWhile (· ≠ dep) = nodes ∧
      nodes.head? = some dep ∧ nodes.getLast? = some f.name := by
  obtain ⟨front, back, hpath, hdrop⟩ := exists_dropWhile_eq hdep
  refine ⟨front, dep :: back, hpath, hdrop, rfl, ?_⟩
  rw [← List.getLast?_append_of_ne_nil front (by simp), ← hpath, h.path_eq_append,
    List.getLast?_concat]

/-- An arrow back to a name on the path closes a cycle that is known from then on. -/
theorem Entered.closesKnown_report (h : Entered g s f below) {dep : String} (hdep : dep ∈ s.path)
    (harrow : g.Arrow f.name dep) : g.ClosesKnown (s.report dep).cycles f.name dep := by
  obtain ⟨front, nodes, -, hnodes, -, hlast⟩ := h.exists_cut hdep
  refine ⟨_, (h.isCycle_close hdep harrow).1, ?_, ?_⟩
  · obtain ⟨init, hinit⟩ := List.getLast?_eq_some_iff.mp hlast
    rw [hnodes, hinit, List.append_assoc]
    exact List.suffix_append _ _
  · rcases cycles_report s dep with ⟨heq, hkey⟩ | ⟨heq, -⟩
    · rw [heq]; exact hkey
    · rw [heq, List.map_append]; simp

/-! ## Arrows that close no cycle lead to names that are done before -/

/-- Each arrow from a name of the list leads to a name after it, unless it is one that closes a
cycle. -/
def Descends (g : Graph) (closes : String → String → Prop) : List String → Prop
  | [] => True
  | u :: rest => (∀ v, g.Arrow u v → v ∈ rest ∨ closes u v) ∧ Descends g closes rest

theorem Descends.mono {closes closes' : String → String → Prop} {l : List String}
    (h : Descends g closes l) (hc : ∀ u v, closes u v → closes' u v) : Descends g closes' l := by
  induction l with
  | nil => trivial
  | cons u rest ih => exact ⟨fun v harrow => (h.1 v harrow).imp_right (hc u v), ih h.2⟩

/-- Names that each have a successor among them cannot all have it later in the list: the arrow from
the last of them closes a cycle. -/
theorem Descends.exists_closes {closes : String → String → Prop} {l names : List String}
    {next : String → String → Prop} (h : Descends g closes l)
    (hnext : ∀ u ∈ names, ∃ v ∈ names, next u v ∧ g.Arrow u v) (hl : ∃ u ∈ l, u ∈ names) :
    ∃ u v, next u v ∧ closes u v := by
  induction l with
  | nil => simp at hl
  | cons u rest ih =>
    by_cases hrest : ∃ v ∈ rest, v ∈ names
    · exact ih h.2 hrest
    · have hu : u ∈ names := by
        obtain ⟨v, hv, hvn⟩ := hl
        rcases List.mem_cons.mp hv with rfl | hv
        · exact hvn
        · exact absurd ⟨v, hv, hvn⟩ hrest
      obtain ⟨v, hv, hstep, harrow⟩ := hnext u hu
      rcases h.1 v harrow with hin | hcloses
      · exact absurd ⟨v, hin, hv⟩ hrest
      · exact ⟨u, v, hstep, hcloses⟩

/-- Where an arrow from the name of a frame may lead, when there are other frames above it. -/
inductive LeadsTo (g : Graph) (s : Traversal) (above : List Frame) (f : Frame) (v : String) : Prop
  | pending (h : v ∈ f.pending)
  | done (h : v ∈ finished s.marks)
  | above (h : v ∈ above.map (·.name))
  | closes (h : g.ClosesKnown s.cycles f.name v)

/-- During a search, an arrow that closes no known cycle leads from a name that is done to one that
was done before it, and from a name on the stack to one that is pending in its frame, done, or above
it on the stack. -/
structure Tracked (g : Graph) (s : Traversal) : Prop where
  done : Descends g (g.ClosesKnown s.cycles) (finished s.marks)
  stack : ∀ above f below, s.stack = above ++ f :: below →
    ∀ v, g.Arrow f.name v → LeadsTo g s above f v

theorem LeadsTo.mono {above above' : List Frame} {e : Frame} {v : String}
    (h : LeadsTo g s above e v) (hdone : finished s.marks ⊆ finished s'.marks)
    (hcycles : s.cycles ⊆ s'.cycles)
    (habove : v ∈ above.map (·.name) → LeadsTo g s' above' e v) : LeadsTo g s' above' e v := by
  cases h with
  | pending hv => exact .pending hv
  | done hv => exact .done (hdone hv)
  | above hv => exact habove hv
  | closes hv => exact .closes (hv.mono hcycles)

/-- There is nothing above the top frame. -/
theorem Tracked.top (h : Tracked g s) (hs : s.stack = f :: below) {v : String}
    (harrow : g.Arrow f.name v) :
    v ∈ f.pending ∨ v ∈ finished s.marks ∨ g.ClosesKnown s.cycles f.name v := by
  cases h.stack [] f below hs v harrow with
  | pending hv => exact .inl hv
  | done hv => exact .inr (.inl hv)
  | above hv => cases hv
  | closes hv => exact .inr (.inr hv)

/-- The top frame is above all others. -/
theorem Tracked.under (h : Tracked g s) (hs : s.stack = f :: below) {above under : List Frame}
    {e : Frame} (hbelow : below = above ++ e :: under) {v : String} (harrow : g.Arrow e.name v) :
    LeadsTo g s (f :: above) e v := by
  refine h.stack (f :: above) e under ?_ v harrow
  rw [hs, hbelow]
  rfl

theorem Tracked.leave (h : Tracked g s) (hs : s.stack = f :: below) (hf : f.pending = []) :
    Tracked g { s.setMark f.name .done with stack := below, path := s.path.dropLast } := by
  have hfin : finished (s.setMark f.name .done).marks = f.name :: finished s.marks := by
    simp [Traversal.setMark]
  refine ⟨?_, fun above e under hstack v harrow => ?_⟩
  · rw [show finished _ = _ from hfin]
    exact ⟨fun v harrow => (h.top hs harrow).resolve_left (by simp [hf]), h.done⟩
  · refine (h.under hs hstack harrow).mono (hfin ▸ List.subset_cons_self _ _) (List.Subset.refl _)
      fun hv => ?_
    rcases List.mem_cons.mp hv with rfl | hv
    · exact .done (hfin ▸ List.mem_cons_self)
    · exact .above hv

theorem Tracked.push {dep : String} {rest : List String} (h : Tracked g s)
    (hs : s.stack = f :: below) (hf : f.pending = dep :: rest) :
    Tracked g { s with stack := ⟨dep, g.dependencyNames dep⟩ :: ⟨f.name, rest⟩ :: below } := by
  refine ⟨h.done, fun above e under hstack v harrow => ?_⟩
  rcases above with _ | ⟨new, _ | ⟨top, above⟩⟩
  · -- nothing of the new frame was looked at
    obtain ⟨rfl, -⟩ := List.cons.inj hstack
    exact .pending harrow
  · -- the dependency is no longer pending in the frame, but its own frame is above
    obtain ⟨rfl, htail⟩ := List.cons.inj hstack
    obtain ⟨rfl, -⟩ := List.cons.inj htail
    rcases h.top hs harrow with hv | hv | hv
    · rcases List.mem_cons.mp (hf ▸ hv) with rfl | hv
      · exact .above List.mem_cons_self
      · exact .pending hv
    · exact .done hv
    · exact .closes hv
  · obtain ⟨rfl, htail⟩ := List.cons.inj hstack
    obtain ⟨rfl, hbelow⟩ := List.cons.inj htail
    exact (h.under hs hbelow harrow).mono (List.Subset.refl _) (List.Subset.refl _)
      fun hv => .above (List.mem_cons_of_mem _ hv)

/-- Taking a dependency off the top frame, once it is done or the arrow to it has closed a cycle. -/
theorem Tracked.advance {dep : String} {rest : List String} (h : Tracked g s)
    (hs : s.stack = f :: below) (hf : f.pending = dep :: rest)
    (hdep : dep ∈ finished s.marks ∨ g.ClosesKnown s.cycles f.name dep) :
    Tracked g { s with stack := ⟨f.name, rest⟩ :: below } := by
  refine ⟨h.done, fun above e under hstack v harrow => ?_⟩
  rcases above with _ | ⟨top, above⟩
  · obtain ⟨rfl, -⟩ := List.cons.inj hstack
    have hlooked : v ∈ rest ∨ v ∈ finished s.marks ∨ g.ClosesKnown s.cycles f.name v := by
      rcases h.top hs harrow with hv | hv
      · rcases List.mem_cons.mp (hf ▸ hv) with rfl | hv
        · exact .inr hdep
        · exact .inl hv
      · exact .inr hv
    rcases hlooked with hv | hv | hv
    · exact .pending hv
    · exact .done hv
    · exact .closes hv
  · obtain ⟨rfl, hbelow⟩ := List.cons.inj hstack
    exact (h.under hs hbelow harrow).mono (List.Subset.refl _) (List.Subset.refl _)
      fun hv => .above hv

theorem Tracked.report (h : Tracked g s) (n : String) : Tracked g (s.report n) := by
  have hcycles := cycles_subset_report s n
  have hmarks : finished (s.report n).marks = finished s.marks := by rw [Traversal.marks_report]
  refine ⟨hmarks ▸ h.done.mono fun u v hc => hc.mono hcycles,
    fun above e under hstack v harrow => ?_⟩
  rw [Traversal.stack_report] at hstack
  exact (h.stack above e under hstack v harrow).mono (by simp) hcycles .above

theorem report_withStack (s : Traversal) (stack : List Frame) (n : String) :
    { s with stack := stack }.report n = { s.report n with stack := stack } := by
  unfold Traversal.report Traversal.knows
  dsimp only
  split <;> rfl

theorem Tracked.move (h : Tracked g s) (he : Entered g s f below) (hm : Move g s f below s') :
    Tracked g s' := by
  cases hm with
  | leave hf => exact h.leave he.stack_eq hf
  | push hf hdep => exact h.push he.stack_eq hf
  | skip hf hdep => exact h.advance he.stack_eq hf (.inl (mem_finished hdep))
  | close hf hdep =>
    have hcloses := he.closesKnown_report hdep (he.arrow_of_mem_pending (by simp [hf]))
    rw [report_withStack]
    exact (h.report _).advance ((Traversal.stack_report _).trans he.stack_eq) hf (.inr hcloses)

theorem kept_tracked (g : Graph) : Kept g fun s => s.abandoned = false → Tracked g s where
  enter := fun {s f below} _ _ h hongoing => by
    have ht := h (by simpa using hongoing)
    refine ⟨by simpa using ht.done, fun above e under hstack v harrow => ?_⟩
    rw [Traversal.stack_enter] at hstack
    exact (ht.stack above e under hstack v harrow).mono (by simp) (by simp) .above
  move := fun he hm h _ => (h he.ongoing).move he hm
  abandon := fun _ _ _ hongoing => nomatch hongoing

theorem tracked_startAt {v : Survey} {start : String}
    (h : Descends g (g.ClosesKnown v.cycles) (finished v.marks)) :
    Tracked g (g.startAt v start) := by
  refine ⟨h, fun above e under hstack w harrow => .pending ?_⟩
  rcases above with _ | ⟨top, above⟩
  · obtain ⟨rfl, -⟩ := List.cons.inj hstack
    exact harrow
  · have hnil := (List.cons.inj hstack).2
    simp at hnil

/-- When no search is given up, every name is done in the end, and each arrow that closes no known
cycle leads to a name that is done before. -/
theorem descends_survey (hnone : g.abandonedStarts = []) :
    Descends g (g.ClosesKnown g.cycles.1) (finished g.survey.marks) ∧
      ∀ n, (g.component? n).isSome → n ∈ finished g.survey.marks := by
  have hquiet : Survey.IsQuiet ⟨[], [], 0⟩ := fun n => by simp [Survey.mark]
  have hzero : g.survey.abandoned = 0 := by
    have hcount := abandoned_foldl_visit (g := g) ⟨[], [], 0⟩ (g.components.map (·.name))
    rwa [show g.abandonedFrom _ _ = [] from hnone] at hcount
  constructor
  · refine (foldl_visit (v := ⟨[], [], 0⟩)
      (Q := fun v => v.abandoned = 0 → Descends g (g.ClosesKnown v.cycles) (finished v.marks))
      (List.Subset.refl _) hquiet (fun _ => trivial) ?_).2 hzero
    intro v start hv hstart hs hQ hzero
    rw [visit_of_isSearched hs] at hzero ⊢
    have hongoing : (g.search v start).abandoned = false := by
      cases hab : (g.search v start).abandoned with
      | false => rfl
      | true => simp [hab] at hzero
    have hbefore : v.abandoned = 0 := by simpa [hongoing] using hzero
    have hkept := (search_end (kept_tracked g) hv hs hstart fun _ =>
      tracked_startAt (hQ hbefore)).2.2
    exact (hkept hongoing).done
  · intro n hn
    have hempty : Settled g (Excepted g (fun _ => False) ⟨[], [], 0⟩) (finished []) := trivial
    obtain ⟨-, hdone, -⟩ :=
      settled_foldl_visit (v := ⟨[], [], 0⟩) (List.Subset.refl _) hquiet hempty
    obtain ⟨hne, hmem⟩ := isSome_component?_iff.mp hn
    refine (hdone n hmem hne).resolve_left ?_
    rw [show g.abandonedFrom _ _ = [] from hnone]
    exact List.not_mem_nil

/-! ## One cycle for each arrow -/

/-- The first and the last of the nodes of a cycle, which the arrow that closes it joins. -/
def ends (c : List String) : Option String × Option String :=
  (c.dropLast.head?, c.dropLast.getLast?)

/-- No two reported cycles are closed by the same arrow; and the name that the arrow of a reported
cycle comes from is done, or the nodes of the cycle stand on the path. -/
structure Anchored (s : Traversal) : Prop where
  apart : s.cycles.Pairwise fun c d => ends c ≠ ends d
  placed : ∀ c ∈ s.cycles, ∃ u, c.dropLast.getLast? = some u ∧
    (s.mark u = .done ∨ s.mark u = .visiting ∧ c.dropLast <:+: s.path)

/-- In a list without repetition, a part that begins and ends as the list does from some place on is
all that stands there. -/
theorem eq_of_infix_of_ends {front nodes part : List String} (hnodup : (front ++ nodes).Nodup)
    (hpart : part <:+: front ++ nodes) (hhead : part.head? = nodes.head?)
    (hlast : part.getLast? = nodes.getLast?) : part = nodes := by
  obtain ⟨before, after, hsplit⟩ := hpart
  cases nodes with
  | nil => exact List.head?_eq_none_iff.mp hhead
  | cons x ns =>
    obtain ⟨ps, rfl⟩ := List.head?_eq_some_iff.mp hhead
    -- `x` has one place only, so the part begins there
    obtain ⟨-, hnodes, hfront⟩ := List.nodup_append.mp hnodup
    have hx : x ∉ front := fun hmem => hfront x hmem x List.mem_cons_self rfl
    have hx' : x ∉ ns := (List.nodup_cons.mp hnodes).1
    rw [List.append_assoc, List.cons_append] at hsplit
    obtain ⟨-, -, rfl⟩ := (List.append_cons_inj_of_notMem hx hx').mp hsplit.symm
    have hafter : after = [] := by
      by_contra hne
      have hend := List.getLast?_eq_some_getLast hne
      rw [← List.cons_append, List.getLast?_append_of_ne_nil _ hne, hend] at hlast
      rw [← List.cons_append] at hnodes
      exact (List.nodup_append.mp hnodes).2.2 _ (List.mem_of_getLast? hlast) _
        (List.getLast_mem hne) rfl
    rw [hafter, List.append_nil]

theorem Anchored.enter (h : Anchored s) (n : String) : Anchored (s.enter n) := by
  have hmark : ∀ u, s.mark u ≠ .unvisited → (s.enter n).mark u = s.mark u := by
    intro u hu
    rw [Traversal.mark_enter, if_neg]
    rintro ⟨rfl, hun⟩
    exact hu hun
  have hpath : s.path <:+: (s.enter n).path := by
    unfold Traversal.enter
    split
    · exact (List.prefix_append _ _).isInfix
    · exact List.infix_refl _
  refine ⟨by simpa using h.apart, fun c hc => ?_⟩
  obtain ⟨u, hu, hplace⟩ := h.placed c (by simpa using hc)
  refine ⟨u, hu, hplace.imp (fun hdone => ?_) fun ⟨hvisiting, hin⟩ => ⟨?_, hin.trans hpath⟩⟩
  · rw [hmark u (by simp [hdone]), hdone]
  · rw [hmark u (by simp [hvisiting]), hvisiting]

theorem Anchored.leave (h : Anchored s) (he : Entered g s f below) :
    Anchored { s.setMark f.name .done with stack := below, path := s.path.dropLast } := by
  refine ⟨h.apart, fun c hc => ?_⟩
  obtain ⟨u, hu, hplace⟩ := h.placed c hc
  refine ⟨u, hu, ?_⟩
  change (s.setMark f.name .done).mark u = .done ∨
    (s.setMark f.name .done).mark u = .visiting ∧ c.dropLast <:+: s.path.dropLast
  rw [Traversal.mark_setMark]
  by_cases huf : u = f.name
  · exact .inl (if_pos huf)
  · rw [if_neg huf]
    refine hplace.imp_right (And.imp_right fun hin => ?_)
    rw [he.path_eq_append] at hin ⊢
    rw [List.dropLast_concat]
    rcases List.infix_concat_iff.mp hin with hsuffix | hin
    · -- a cycle that ends with the name that is left is closed by an arrow from it
      rcases List.suffix_concat_iff.mp hsuffix with hnil | ⟨t, ht, -⟩
      · rw [hnil] at hu
        cases hu
      · rw [ht, List.getLast?_concat] at hu
        exact absurd (Option.some.inj hu).symm huf
    · exact hin

theorem Anchored.close {dep : String} (h : Anchored s) (he : Entered g s f below)
    (hdep : dep ∈ s.path) : Anchored (s.report dep) := by
  obtain ⟨front, nodes, hpath, hnodes, hhead, hlast⟩ := he.exists_cut hdep
  have hvisiting : s.mark f.name = .visiting := he.mark_eq_visiting_iff.mpr (by simp [he.names_eq])
  have hold : ∀ c ∈ s.cycles, ∃ u, c.dropLast.getLast? = some u ∧
      ((s.report dep).mark u = .done ∨
        (s.report dep).mark u = .visiting ∧ c.dropLast <:+: (s.report dep).path) := by
    simpa using h.placed
  rcases cycles_report s dep with ⟨heq, -⟩ | ⟨heq, hnew⟩
  · exact ⟨heq ▸ h.apart, heq ▸ hold⟩
  · rw [hnodes] at heq hnew
    constructor
    · rw [heq]
      refine List.pairwise_append.mpr
        ⟨h.apart, List.pairwise_singleton _ _, fun c hc d hd hends => ?_⟩
      rw [List.mem_singleton.mp hd, ends, ends, List.dropLast_concat] at hends
      obtain ⟨hheads, hlasts⟩ := Prod.mk.inj hends
      -- the name that both arrows come from is not done, so the other cycle is on the path as well
      obtain ⟨u, hu, hplace⟩ := h.placed c hc
      obtain rfl : u = f.name := Option.some.inj (hu.symm.trans (hlasts.trans hlast))
      have hin := (hplace.resolve_left (by simp [hvisiting])).2
      have hsame : c.dropLast = nodes :=
        eq_of_infix_of_ends (hpath ▸ he.nodup_path) (hpath ▸ hin) hheads hlasts
      refine hnew (List.mem_map.mpr ⟨c, hc, ?_⟩)
      rw [key, key, hsame, List.dropLast_concat]
    · rw [heq]
      refine List.forall_mem_append.mpr ⟨hold, fun c hc => ⟨f.name, ?_, .inr ⟨?_, ?_⟩⟩⟩
      · rw [List.mem_singleton.mp hc, List.dropLast_concat, hlast]
      · rw [Traversal.mark_report, hvisiting]
      · rw [List.mem_singleton.mp hc, List.dropLast_concat, Traversal.path_report, hpath]
        exact (List.suffix_append _ _).isInfix

theorem kept_anchored (g : Graph) : Kept g Anchored where
  enter := fun _ _ h => h.enter _
  move := fun {s f below s'} he hm h => by
    cases hm with
    | leave hf => exact h.leave he
    | push hf hdep => exact ⟨h.apart, h.placed⟩
    | skip hf hdep => exact ⟨h.apart, h.placed⟩
    | close hf hdep =>
      rw [report_withStack]
      have hclose := h.close he hdep
      exact ⟨hclose.apart, hclose.placed⟩
  abandon := fun {s} _ _ h => by
    refine ⟨h.apart, fun c hc => ?_⟩
    obtain ⟨u, hu, hplace⟩ := h.placed c hc
    refine ⟨u, hu, .inl ?_⟩
    rw [Traversal.mark_abandon]
    split
    · rfl
    · rename_i hout
      refine hplace.resolve_right fun ⟨_, hin⟩ => hout (hin.subset (List.mem_of_getLast? hu))

/-- **No two reported cycles are closed by the same arrow.** -/
theorem pairwise_cycles (g : Graph) : g.cycles.1.Pairwise fun c d => ends c ≠ ends d := by
  have hquiet : Survey.IsQuiet ⟨[], [], 0⟩ := fun n => by simp [Survey.mark]
  refine ((foldl_visit (v := ⟨[], [], 0⟩) (Q := fun v => ∀ start, Anchored (g.startAt v start))
    (List.Subset.refl _) hquiet (fun _ => ⟨.nil, by simp [startAt]⟩) ?_).2 "").apart
  intro v start hv hstart hs hQ start'
  obtain ⟨-, hvisiting, hkept⟩ := search_end (kept_anchored g) hv hs hstart (hQ start)
  rw [visit_of_isSearched hs]
  refine ⟨hkept.apart, fun c hc => ?_⟩
  obtain ⟨u, hu, hplace⟩ := hkept.placed c hc
  exact ⟨u, hu, .inl (hplace.resolve_right fun h => hvisiting u h.1)⟩

/-! ## Every cycle -/

namespace IsCycle

variable {c : List String}

/-- A cycle passes on along an arrow from each of its names. -/
theorem exists_next (h : g.IsCycle c) {u : String} (hu : u ∈ c) :
    ∃ v ∈ c, [u, v] <:+: c ∧ g.Arrow u v := by
  obtain ⟨nodes, last, rfl⟩ := (List.eq_nil_or_concat' c).resolve_left (List.ne_nil_of_mem hu)
  have hne : nodes ≠ [] := by
    rintro rfl
    exact absurd h.two_le (by simp)
  -- the last name is the first again, so it stands further in front as well
  have hlast : last ∈ nodes := by
    have hclosed := h.closed
    rw [List.getLast?_concat, List.head?_append_of_ne_nil _ hne] at hclosed
    exact List.mem_of_head? hclosed
  have hmem : u ∈ nodes := by
    rcases List.mem_append.mp hu with hu | hu
    · exact hu
    · exact List.mem_singleton.mp hu ▸ hlast
  obtain ⟨front, back, rfl⟩ := List.append_of_mem hmem
  obtain ⟨v, rest, hv⟩ := List.exists_cons_of_ne_nil (l := back ++ [last]) (by simp)
  have hcycle : front ++ u :: back ++ [last] = front ++ [u, v] ++ rest := by
    rw [List.append_assoc, List.cons_append, hv]
    simp
  have hin : [u, v] <:+: front ++ u :: back ++ [last] := ⟨front, rest, hcycle.symm⟩
  have hpair : [u, v].IsChain g.Arrow := List.IsChain.infix h.chain hin
  exact ⟨v, hin.subset (by simp), hin, List.isChain_pair.mp hpair⟩

/-- The arrow that closes a cycle leads to its first node. -/
theorem ends_eq (h : g.IsCycle c) {u v : String} (hlast : [u, v] <:+ c) :
    ends c = (some v, some u) := by
  obtain ⟨front, rfl⟩ := hlast
  have hsplit : front ++ [u, v] = front ++ [u] ++ [v] := by simp
  have hclosed := h.closed
  rw [hsplit, List.getLast?_concat, List.head?_append_of_ne_nil _ (by simp)] at hclosed
  rw [ends, hsplit, List.dropLast_concat, List.getLast?_concat, hclosed]

end IsCycle

/-- **Every cycle passes along an arrow that closes a reported cycle**, if only by its key, when no
search is given up. A cycle that shares no arrow and no key with other cycles is therefore reported,
up to rotation. But no two reported cycles are closed by the same arrow, so where cycles share
arrows not all of them need to be reported. -/
theorem cycles_meet_every_cycle {g : Graph} (hnone : g.abandonedStarts = []) :
    (∀ c, g.IsCycle c →
      (∃ u v d, [u, v] <:+: c ∧ g.IsCycle d ∧ [u, v] <:+ d ∧ ∃ r ∈ g.cycles.1, key r = key d) ∧
      ((∀ d, g.IsCycle d → (∃ u v, [u, v] <:+: c ∧ [u, v] <:+: d) ∨ key d = key c →
          d.dropLast.IsRotated c.dropLast) →
        ∃ r ∈ g.cycles.1, r.dropLast.IsRotated c.dropLast)) ∧
      g.cycles.1.Pairwise fun c d => ∀ u v, [u, v] <:+ c → ¬[u, v] <:+ d := by
  obtain ⟨hdescends, hdone⟩ := descends_survey hnone
  obtain ⟨hreported, -⟩ := g.reported_cycles
  refine ⟨fun c hc => ?_, ?_⟩
  · obtain ⟨n, hn⟩ := List.exists_mem_of_length_pos (by have := hc.two_le; omega : 0 < c.length)
    obtain ⟨u, v, hshared, d, hd, hlast, hkey⟩ := hdescends.exists_closes
      (fun u hu => hc.exists_next hu) ⟨n, hdone n (hc.isSome_component? hn), hn⟩
    obtain ⟨r, hr, hrd⟩ := List.mem_map.mp hkey
    refine ⟨⟨u, v, d, hshared, hd, hlast, r, hr, hrd⟩, fun halone => ⟨r, hr, ?_⟩⟩
    have hrotated := halone d hd (.inl ⟨u, v, hshared, hlast.isInfix⟩)
    have hsame : key d = key c := key_eq_of_isRotated hrotated hd.nodup
    exact halone r (hreported r hr) (.inr (hrd.trans hsame))
  · refine List.Pairwise.imp_of_mem ?_ g.pairwise_cycles
    intro c d hc hd hends u v hlast hlast'
    exact hends (((hreported c hc).ends_eq hlast).trans ((hreported d hd).ends_eq hlast').symm)

/-- A graph of three files in which two loops share an arrow. -/
def sharedArrow : Graph where
  components := [bareFile "ui" ["core", "util"], bareFile "core" ["util"], bareFile "util" ["ui"]]
  rootPath := ""
  languages := []
  directories := []

theorem cycles_miss_sharedArrow :
    sharedArrow.abandonedStarts = [] ∧ sharedArrow.IsCycle ["ui", "util", "ui"] ∧
      (∀ r ∈ sharedArrow.cycles.1, ¬r.dropLast.IsRotated ["ui", "util", "ui"].dropLast) ∧
      ∃ u v d, [u, v] <:+: ["ui", "util", "ui"] ∧ sharedArrow.IsCycle d ∧ [u, v] <:+ d ∧
        ∃ r ∈ sharedArrow.cycles.1, key r = key d := by
  have hnone : sharedArrow.abandonedStarts = [] := abandonedStarts_eq_nil (by decide)
  have hcycle : sharedArrow.IsCycle ["ui", "util", "ui"] :=
    ⟨by decide, by decide, by decide, by decide⟩
  exact ⟨hnone, hcycle, by decide, ((cycles_meet_every_cycle hnone).1 _ hcycle).1⟩

end Layering.Graph
