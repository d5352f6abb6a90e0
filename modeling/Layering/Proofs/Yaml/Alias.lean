import Layering.Yaml.Document
import Mathlib.Tactic.Common

/-!
# Limits on aliases

A tree of nodes is written as events (`Node.events`) in document order, and the builder turns them back
into the tree if every alias stands behind its anchor and no anchor is set twice (`builds`). A limit
on aliases changes what is built in one way only: as long as the events up to the end of the text hold no
more aliases than allowed, it makes no difference, and otherwise there are too many
(`run_some_of_run_none`). So the limit is exact for every tree, wherever its aliases stand
(`alias_limit_exact`). Before a tree is built, the events of a text are cut off at the first collection
that lies too deep. The events of a tree that is not that deep stay as they are
(`limitNesting_document`), so the limit is exact for the texts of these trees as well (`read_document`).
-/

namespace Layering.Yaml

/-! ## Trees as events -/

namespace Node

mutual

/-- The events of a tree, in document order. -/
def events : Node → List Event
  | .alias name => [.alias name]
  | .scalar a t text => [.scalar a t text]
  | .sequence a t items => .sequenceStart a t :: (itemEvents items ++ [.sequenceEnd])
  | .mapping a t pairs => .mappingStart a t :: (pairEvents pairs ++ [.mappingEnd])

/-- The events of the items of a sequence. -/
def itemEvents : List Node → List Event
  | [] => []
  | n :: ns => n.events ++ itemEvents ns

/-- The events of the keys and values of a mapping. -/
def pairEvents : List (Node × Node) → List Event
  | [] => []
  | p :: ps => p.1.events ++ p.2.events ++ pairEvents ps

end

mutual

/-- The number of aliases in a tree. -/
def aliasCount : Node → Nat
  | .alias _ => 1
  | .scalar _ _ _ => 0
  | .sequence _ _ items => itemAliasCount items
  | .mapping _ _ pairs => pairAliasCount pairs

/-- The number of aliases in the items of a sequence. -/
def itemAliasCount : List Node → Nat
  | [] => 0
  | n :: ns => n.aliasCount + itemAliasCount ns

/-- The number of aliases in the keys and values of a mapping. -/
def pairAliasCount : List (Node × Node) → Nat
  | [] => 0
  | p :: ps => p.1.aliasCount + p.2.aliasCount + pairAliasCount ps

end

/-- The events of a text that holds one document. -/
def document (n : Node) : List Event :=
  .documentStart :: (n.events ++ [.documentEnd, .streamEnd])

/-- The keys and values of a mapping, in document order. -/
def parts (pairs : List (Node × Node)) : List Node := pairs.flatMap fun p => [p.1, p.2]

theorem itemEvents_eq (items : List Node) : itemEvents items = items.flatMap events := by
  induction items with
  | nil => rfl
  | cons n ns ih => rw [itemEvents, ih, List.flatMap_cons]

theorem pairEvents_eq (pairs : List (Node × Node)) :
    pairEvents pairs = (parts pairs).flatMap events := by
  induction pairs with
  | nil => rfl
  | cons p ps ih => simp [pairEvents, ih, parts]

/-- What holds of aliases and scalars, and of collections when it holds of all their parts, holds of all
nodes. -/
theorem induction {P : Node → Prop} (reference : ∀ name, P (.alias name))
    (scalar : ∀ a t text, P (.scalar a t text))
    (sequence : ∀ a t items, (∀ n ∈ items, P n) → P (.sequence a t items))
    (mapping : ∀ a t pairs, (∀ n ∈ parts pairs, P n) → P (.mapping a t pairs)) (n : Node) : P n :=
  @Node.rec P (fun items => ∀ n ∈ items, P n) (fun pairs => ∀ n ∈ parts pairs, P n)
    (fun p => P p.1 ∧ P p.2) reference scalar sequence mapping (by simp)
    (fun _ _ hn hns => List.forall_mem_cons.mpr ⟨hn, hns⟩) (by simp [parts])
    (fun _ _ hp hps => List.forall_mem_cons.mpr ⟨hp.1, List.forall_mem_cons.mpr ⟨hp.2, hps⟩⟩)
    (fun _ _ hk hv => ⟨hk, hv⟩) n

end Node

/-! ## Anchors and aliases in events -/

namespace Event

/-- The anchor that an event sets. -/
def anchor? : Event → Option String
  | .scalar a _ _ => a
  | .sequenceStart a _ => a
  | .mappingStart a _ => a
  | _ => none

/-- The anchor that an event refers to. -/
def alias? : Event → Option String
  | .alias name => some name
  | _ => none

/-- Whether an event is an alias. -/
def isAlias (e : Event) : Bool := e.alias?.isSome

/-- Whether each alias among events refers to an anchor that is set before it, and each anchor is set only
once; `known` holds the anchors set before these events. -/
def areAnchored (known : List String) : List Event → Bool
  | [] => true
  | e :: es => e.alias?.all known.contains && e.anchor?.all (!known.contains ·) &&
      areAnchored (e.anchor?.toList ++ known) es

theorem areAnchored_append (known : List String) (es fs : List Event) :
    areAnchored known (es ++ fs) =
      (areAnchored known es && areAnchored ((es.filterMap anchor?).reverse ++ known) fs) := by
  induction es generalizing known with
  | nil => simp [areAnchored]
  | cons e es ih =>
    have hanchors : (List.filterMap anchor? (e :: es)).reverse ++ known =
        (es.filterMap anchor?).reverse ++ (e.anchor?.toList ++ known) := by
      cases h : e.anchor? <;> simp [h]
    rw [List.cons_append, areAnchored, areAnchored, ih, hanchors]
    simp only [Bool.and_assoc]

end Event

namespace Node

theorem itemAliasCount_eq {items : List Node}
    (h : ∀ n ∈ items, n.events.countP Event.isAlias = n.aliasCount) :
    (items.flatMap events).countP Event.isAlias = itemAliasCount items := by
  induction items with
  | nil => rfl
  | cons n ns ih =>
    obtain ⟨hn, hns⟩ := List.forall_mem_cons.mp h
    rw [List.flatMap_cons, List.countP_append, hn, ih hns, itemAliasCount]

theorem pairAliasCount_eq {pairs : List (Node × Node)}
    (h : ∀ n ∈ parts pairs, n.events.countP Event.isAlias = n.aliasCount) :
    ((parts pairs).flatMap events).countP Event.isAlias = pairAliasCount pairs := by
  induction pairs with
  | nil => rfl
  | cons p ps ih =>
    obtain ⟨hk, hrest⟩ := List.forall_mem_cons.mp h
    obtain ⟨hv, hps⟩ := List.forall_mem_cons.mp hrest
    rw [pairAliasCount, ← ih hps, ← hk, ← hv]
    simp [parts, Nat.add_assoc]

/-- The aliases of a tree are those among its events. -/
theorem countP_isAlias_events (n : Node) : n.events.countP Event.isAlias = n.aliasCount := by
  induction n using Node.induction with
  | reference name => rfl
  | scalar a t text => rfl
  | sequence a t items ih =>
    rw [events, aliasCount, itemEvents_eq, ← itemAliasCount_eq ih]
    simp [Event.isAlias, Event.alias?]
  | mapping a t pairs ih =>
    rw [events, aliasCount, pairEvents_eq, ← pairAliasCount_eq ih]
    simp [Event.isAlias, Event.alias?]

theorem streamEnd_notMem_events (n : Node) : Event.streamEnd ∉ n.events := by
  induction n using Node.induction with
  | reference name => simp [events]
  | scalar a t text => simp [events]
  | sequence a t items ih => simpa [events, itemEvents_eq] using ih
  | mapping a t pairs ih => simpa [events, pairEvents_eq] using ih

end Node

/-! ## Building a tree from its events -/

namespace Node.Builder

/-- The builder after the anchors and aliases of events have been noted in it. -/
def note (b : Builder) (es : List Event) : Builder :=
  { b with
    anchors := (es.filterMap Event.anchor?).reverse ++ b.anchors
    aliases := b.aliases + es.countP Event.isAlias }

theorem note_note (b : Builder) (es fs : List Event) : (b.note es).note fs = b.note (es ++ fs) := by
  simp [note, Nat.add_assoc]

theorem note_of_plain (b : Builder) {e : Event} (h : e.alias? = none ∧ e.anchor? = none) :
    b.note [e] = b := by
  simp [note, Event.isAlias, h]

theorem add_note (b : Builder) (es : List Event) (n : Node) :
    (b.note es).add n = (b.add n).note es := by
  unfold add note
  split <;> simp_all

theorem anchors_add (b : Builder) (n : Node) : (b.add n).anchors = b.anchors := by
  unfold add
  split <;> rfl

theorem aliases_add (b : Builder) (n : Node) : (b.add n).aliases = b.aliases := by
  unfold add
  split <;> rfl

theorem foldl_add_note (b : Builder) (es : List Event) (ns : List Node) :
    ns.foldl add (b.note es) = (ns.foldl add b).note es := by
  induction ns generalizing b with
  | nil => rfl
  | cons n ns ih => rw [List.foldl_cons, List.foldl_cons, add_note, ih]

theorem foldl_add_sequence (b : Builder) (a : Option String) (t : Tag) (items done : List Node) :
    items.foldl add (b.push (.sequence a t done)) = b.push (.sequence a t (items.reverse ++ done)) := by
  induction items generalizing done with
  | nil => rfl
  | cons n ns ih =>
    rw [List.foldl_cons, show (b.push (.sequence a t done)).add n = b.push (.sequence a t (n :: done))
      from rfl, ih, List.reverse_cons, List.append_assoc, List.singleton_append]

theorem foldl_add_mapping (b : Builder) (a : Option String) (t : Tag)
    (pairs done : List (Node × Node)) :
    (parts pairs).foldl add (b.push (.mapping a t done none)) =
      b.push (.mapping a t (pairs.reverse ++ done) none) := by
  induction pairs generalizing done with
  | nil => rfl
  | cons p ps ih =>
    have hpair : ((b.push (.mapping a t done none)).add p.1).add p.2 =
        b.push (.mapping a t (p :: done) none) := rfl
    rw [parts, List.flatMap_cons, List.foldl_append, List.foldl_cons, List.foldl_cons, List.foldl_nil,
      hpair, ← parts, ih, List.reverse_cons, List.append_assoc, List.singleton_append]

theorem endSequence_note (b : Builder) (a : Option String) (t : Tag) (items : List Node)
    (es : List Event) : ((b.push (.sequence a t items)).note es).endSequence =
      .ok ((b.add (.sequence a t items.reverse)).note es) := by
  rw [← add_note]
  rfl

theorem endMapping_note (b : Builder) (a : Option String) (t : Tag) (pairs : List (Node × Node))
    (es : List Event) : ((b.push (.mapping a t pairs none)).note es).endMapping =
      .ok ((b.add (.mapping a t pairs.reverse)).note es) := by
  rw [← add_note]
  rfl

variable {limit : Option ℕ} {b b' : Builder} {e : Event} {es : List Event}

theorem run_of_step (he : e ≠ .streamEnd) (h : b.step limit e = .ok b') :
    run limit b (e :: es) = run limit b' es := by
  rw [run, if_neg he, h]

/-- Beginning a node notes its anchor. -/
theorem setAnchor_eq {a : Option String} (h : a.all (!b.anchors.contains ·) = true) :
    b.setAnchor a = .ok { b with anchors := a.toList ++ b.anchors } := by
  cases a with
  | none => rfl
  | some name =>
    have hnew : ¬b.anchors.contains name = true := by simpa using h
    rw [setAnchor, if_neg hnew]
    rfl

/-- What the events of a node do to a builder without a limit. -/
def Builds (n : Node) : Prop :=
  ∀ (b : Builder) (es : List Event), Event.areAnchored b.anchors n.events = true →
    run none b (n.events ++ es) = run none ((b.add n).note n.events) es

theorem run_flatMap_events {ns : List Node} (hns : ∀ n ∈ ns, Builds n) (b : Builder)
    (es : List Event) (h : Event.areAnchored b.anchors (ns.flatMap events) = true) :
    run none b (ns.flatMap events ++ es) =
      run none ((ns.foldl add b).note (ns.flatMap events)) es := by
  induction ns generalizing b with
  | nil => rfl
  | cons n ns ih =>
    obtain ⟨hn, hns⟩ := List.forall_mem_cons.mp hns
    rw [List.flatMap_cons, Event.areAnchored_append, Bool.and_eq_true] at h
    have hrest : Event.areAnchored ((b.add n).note n.events).anchors (ns.flatMap events) = true := by
      simpa [note, anchors_add] using h.2
    rw [List.flatMap_cons, List.append_assoc, hn b _ h.1, ih hns _ hrest, foldl_add_note, note_note,
      List.foldl_cons]

/-- The events of a collection build it, if its parts are built from theirs, its first event begins it
and its last event ends it. -/
theorem run_collection {n : Node} {ns : List Node} {start stop : Event} {o : Open}
    (hns : ∀ m ∈ ns, Builds m) (hevents : n.events = start :: (ns.flatMap events ++ [stop]))
    (hstart : b.step none start = .ok ((b.push o).note [start])) (hstart' : start ≠ .streamEnd)
    (hstop : ∀ fs, ((ns.foldl add (b.push o)).note fs).step none stop = .ok ((b.add n).note fs))
    (hplain : stop.alias? = none ∧ stop.anchor? = none) (hstop' : stop ≠ .streamEnd)
    (h : Event.areAnchored b.anchors n.events = true) :
    run none b (n.events ++ es) = run none ((b.add n).note n.events) es := by
  have hparts : Event.areAnchored ((b.push o).note [start]).anchors (ns.flatMap events) = true := by
    rw [hevents, ← List.singleton_append, Event.areAnchored_append, Event.areAnchored_append,
      Bool.and_eq_true, Bool.and_eq_true] at h
    exact h.2.1
  have hnote : ∀ c : Builder, c.note n.events = c.note ([start] ++ ns.flatMap events) := by
    intro c
    rw [hevents, ← List.cons_append, ← note_note, note_of_plain _ hplain, List.singleton_append]
  calc run none b (n.events ++ es)
      = run none b (start :: (ns.flatMap events ++ stop :: es)) := by simp [hevents]
    _ = run none ((b.push o).note [start]) (ns.flatMap events ++ stop :: es) :=
      run_of_step hstart' hstart
    _ = run none ((ns.foldl add (b.push o)).note ([start] ++ ns.flatMap events)) (stop :: es) := by
      rw [run_flatMap_events hns _ _ hparts, foldl_add_note, note_note]
    _ = run none ((b.add n).note n.events) es := by rw [run_of_step hstop' (hstop _), hnote]

/-- **The events of a node build that node.** -/
theorem builds (n : Node) : Builds n := by
  induction n using Node.induction with
  | reference name =>
    intro b es h
    have hknown : b.anchors.contains name = true := by
      simpa [events, Event.areAnchored, Event.alias?, Event.anchor?] using h
    have hstep : b.step none (.alias name) = .ok ((b.add (.alias name)).note [.alias name]) := by
      rw [step, addAlias, if_neg (by simp), if_pos hknown]
      simp [note, anchors_add, aliases_add, Event.anchor?, Event.isAlias, Event.alias?]
    exact run_of_step (by simp) hstep
  | scalar a t text =>
    intro b es h
    have hnew : a.all (!b.anchors.contains ·) = true := by
      simpa [events, Event.areAnchored, Event.alias?, Event.anchor?] using h
    have hstep : b.step none (.scalar a t text) =
        .ok ((b.add (.scalar a t text)).note [.scalar a t text]) := by
      rw [step, setAnchor_eq hnew, ← add_note]
      cases a <;> rfl
    exact run_of_step (by simp) hstep
  | sequence a t items ih =>
    intro b es h
    have hevents : (Node.sequence a t items).events =
        .sequenceStart a t :: (items.flatMap events ++ [.sequenceEnd]) := by
      rw [events, itemEvents_eq]
    have hnew : a.all (!b.anchors.contains ·) = true := by
      rw [hevents, Event.areAnchored, Bool.and_eq_true, Bool.and_eq_true] at h
      exact h.1.2
    refine run_collection ih hevents (o := .sequence a t []) ?_ (by simp) (fun fs => ?_) ⟨rfl, rfl⟩
      (by simp) h
    · rw [step, setAnchor_eq hnew]
      cases a <;> rfl
    · rw [foldl_add_sequence, step, endSequence_note, List.append_nil, List.reverse_reverse]
  | mapping a t pairs ih =>
    intro b es h
    have hevents : (Node.mapping a t pairs).events =
        .mappingStart a t :: ((parts pairs).flatMap events ++ [.mappingEnd]) := by
      rw [events, pairEvents_eq]
    have hnew : a.all (!b.anchors.contains ·) = true := by
      rw [hevents, Event.areAnchored, Bool.and_eq_true, Bool.and_eq_true] at h
      exact h.1.2
    refine run_collection ih hevents (o := .mapping a t [] none) ?_ (by simp) (fun fs => ?_)
      ⟨rfl, rfl⟩ (by simp) h
    · rw [step, setAnchor_eq hnew]
      cases a <;> rfl
    · rw [foldl_add_mapping, step, endMapping_note, List.append_nil, List.reverse_reverse]

/-! ## The limit -/

/-- The number of aliases up to the end of the text. -/
def aliasesBeforeEnd (es : List Event) : ℕ := (es.takeWhile (· ≠ .streamEnd)).countP Event.isAlias

theorem aliasesBeforeEnd_cons (he : e ≠ .streamEnd) (es : List Event) :
    aliasesBeforeEnd (e :: es) = (if e.isAlias then 1 else 0) + aliasesBeforeEnd es := by
  rw [aliasesBeforeEnd, List.takeWhile_cons_of_pos (by simpa using he), List.countP_cons, Nat.add_comm]
  rfl

/-- A limit of aliases shows at an alias only. -/
theorem step_some (m : ℕ) (b : Builder) (e : Event) : b.step (some m) e =
    if e.isAlias = true ∧ m < b.aliases + 1 then .error .tooManyAliases else b.step none e := by
  cases e <;> simp [step, addAlias, Event.isAlias, Event.alias?]

theorem aliases_of_setAnchor {a : Option String} (h : b.setAnchor a = .ok b') :
    b'.aliases = b.aliases := by
  unfold setAnchor at h
  split at h
  · cases h
    rfl
  · split at h <;> cases h
    rfl

theorem aliases_of_map_setAnchor {a : Option String} {f : Builder → Builder}
    (hf : ∀ c, (f c).aliases = c.aliases) (h : (b.setAnchor a).map f = .ok b') :
    b'.aliases = b.aliases := by
  cases hset : b.setAnchor a with
  | error fault => simp [hset, Except.map] at h
  | ok c =>
    rw [hset] at h
    cases h
    rw [hf, aliases_of_setAnchor hset]

theorem aliases_of_endSequence (h : b.endSequence = .ok b') : b'.aliases = b.aliases := by
  unfold endSequence at h
  split at h <;> cases h
  exact aliases_add _ _

theorem aliases_of_endMapping (h : b.endMapping = .ok b') : b'.aliases = b.aliases := by
  unfold endMapping at h
  split at h <;> cases h
  exact aliases_add _ _

/-- A step counts an alias, and nothing else. -/
theorem aliases_of_step (h : b.step none e = .ok b') :
    b'.aliases = b.aliases + if e.isAlias then 1 else 0 := by
  cases e with
  | «alias» name =>
    rw [step, addAlias, if_neg (by simp)] at h
    split at h <;> cases h
    rfl
  | scalar a t text => exact aliases_of_map_setAnchor (fun c => aliases_add c _) h
  | sequenceStart a t => exact aliases_of_map_setAnchor (f := (·.push _)) (fun _ => rfl) h
  | mappingStart a t => exact aliases_of_map_setAnchor (f := (·.push _)) (fun _ => rfl) h
  | sequenceEnd => exact aliases_of_endSequence h
  | mappingEnd => exact aliases_of_endMapping h
  | documentStart =>
    rw [step] at h
    split at h <;> cases h
    rfl
  | documentEnd =>
    cases h
    rfl
  | streamEnd =>
    cases h
    rfl
  | fault f => cases h

/-- **What a limit of aliases changes.** Where events build something without a limit, they build the
same within a limit, unless there are more aliases up to the end than it allows. -/
theorem run_some_of_run_none {m : ℕ} {r : Option Node} (hb : b.aliases ≤ m)
    (h : run none b es = .ok r) : run (some m) b es =
      if m < b.aliases + aliasesBeforeEnd es then .error .tooManyAliases else .ok r := by
  induction es generalizing b with
  | nil => simp [run] at h
  | cons e es ih =>
    by_cases he : e = .streamEnd
    · subst he
      rw [run, if_pos rfl] at h
      rw [run, if_pos rfl, if_neg (by simpa [aliasesBeforeEnd] using hb), h]
    · cases hstep : b.step none e with
      | error f => simp [run, he, hstep] at h
      | ok b' =>
        rw [run_of_step he hstep] at h
        rw [run, if_neg he, step_some, aliasesBeforeEnd_cons he]
        have hcount := aliases_of_step hstep
        by_cases hover : e.isAlias = true ∧ m < b.aliases + 1
        · rw [if_pos hover, if_pos (by rw [if_pos hover.1]; omega)]
        · have hb' : b'.aliases ≤ m := by
            rw [hcount]
            split_ifs with halias
            · have : ¬m < b.aliases + 1 := fun hlt => hover ⟨halias, hlt⟩
              omega
            · omega
          rw [if_neg hover, hstep, ← Nat.add_assoc, ← hcount]
          exact ih hb' h

end Node.Builder

namespace Node

theorem run_document (n : Node) (h : Event.areAnchored [] n.events = true) :
    ofEventsWithin none n.document = .ok (some n) := by
  have hbuilds := Builder.builds n {} [.documentEnd, .streamEnd] h
  rw [ofEventsWithin, document, Builder.run_of_step (by simp) rfl, hbuilds,
    Builder.run_of_step (by simp) rfl]
  rfl

theorem aliasesBeforeEnd_document (n : Node) :
    Builder.aliasesBeforeEnd n.document = n.aliasCount := by
  have hevents : ∀ e ∈ n.events, decide (e ≠ .streamEnd) = true := by
    intro e he
    rw [decide_eq_true_eq]
    rintro rfl
    exact n.streamEnd_notMem_events he
  rw [document, Builder.aliasesBeforeEnd_cons (by simp), Builder.aliasesBeforeEnd,
    List.takeWhile_append_of_pos hevents, List.countP_append, countP_isAlias_events]
  simp [Event.isAlias, Event.alias?]

theorem ofEvents_document (n : Node) (h : Event.areAnchored [] n.events = true) :
    ofEvents n.document =
      if maxAliases < n.aliasCount then .error .tooManyAliases else .ok (some n) := by
  have hrun := Builder.run_some_of_run_none (Nat.zero_le maxAliases) (n.run_document h)
  rwa [aliasesBeforeEnd_document, Nat.zero_add] at hrun

/-- **The limit on aliases is exact.** Take any tree in which each alias refers to an anchor that is set
before it and no anchor is set twice. Without a limit, its events build the tree. With the limit, there are
too many aliases exactly if the tree has more than are allowed, at whatever depth and whether as keys, as
values or as items; if it has not, the same is built as without the limit. -/
theorem alias_limit_exact (n : Node) (h : Event.areAnchored [] n.events = true) :
    (ofEvents n.document = .error .tooManyAliases ↔ maxAliases < n.aliasCount) ∧
      (n.aliasCount ≤ maxAliases → ofEvents n.document = ofEventsWithin none n.document) ∧
      ofEventsWithin none n.document = .ok (some n) := by
  have hfree := n.run_document h
  refine ⟨?_, fun hle => ?_, hfree⟩
  · rw [n.ofEvents_document h]
    split_ifs with hover <;> simp [hover]
  · rw [n.ofEvents_document h, hfree, if_neg (Nat.not_lt.mpr hle)]

/-- A mapping that refers to its first value as a key, as a value, as items and from inside itself, so that
there are `k + 3` aliases. -/
def references (k : ℕ) : Node :=
  .mapping (some "whole") .map [
    (.scalar none .str "base", .sequence (some "base") .seq [.scalar none .int "1"]),
    (.alias "base", .alias "whole"),
    (.scalar none .str "items", .sequence none .seq
      [.sequence none .seq (List.replicate k (.alias "base")), .alias "base"])]

theorem alias_limit_exact_references :
    Event.areAnchored [] (references 97).events = true ∧
      ofEvents (references 97).document = .ok (some (references 97)) ∧
      Event.areAnchored [] (references 98).events = true ∧
      ofEvents (references 98).document = .error .tooManyAliases := by
  have h97 : Event.areAnchored [] (references 97).events = true := by decide +kernel
  have h98 : Event.areAnchored [] (references 98).events = true := by decide +kernel
  obtain ⟨-, hfew, hbuilt⟩ := alias_limit_exact (references 97) h97
  refine ⟨h97, ?_, h98, (alias_limit_exact (references 98) h98).1.mpr (by decide +kernel)⟩
  rw [hfew (by decide +kernel), hbuilt]

/-! ## Texts -/

mutual

/-- The number of collections of a tree that lie in one another. -/
def depth : Node → Nat
  | .alias _ => 0
  | .scalar _ _ _ => 0
  | .sequence _ _ items => itemDepth items + 1
  | .mapping _ _ pairs => pairDepth pairs + 1

/-- The same for the items of a sequence. -/
def itemDepth : List Node → Nat
  | [] => 0
  | n :: ns => Nat.max n.depth (itemDepth ns)

/-- The same for the keys and values of a mapping. -/
def pairDepth : List (Node × Node) → Nat
  | [] => 0
  | p :: ps => Nat.max (Nat.max p.1.depth p.2.depth) (pairDepth ps)

end

theorem depth_le_itemDepth {items : List Node} : ∀ n ∈ items, n.depth ≤ itemDepth items := by
  induction items with
  | nil => exact List.forall_mem_nil _
  | cons m ms ih =>
    refine List.forall_mem_cons.mpr ⟨Nat.le_max_left _ _, fun n hn => ?_⟩
    exact Nat.le_trans (ih n hn) (Nat.le_max_right _ _)

theorem depth_le_pairDepth {pairs : List (Node × Node)} :
    ∀ n ∈ parts pairs, n.depth ≤ pairDepth pairs := by
  induction pairs with
  | nil => exact List.forall_mem_nil _
  | cons p ps ih =>
    have hpair : Nat.max p.1.depth p.2.depth ≤ pairDepth (p :: ps) := Nat.le_max_left _ _
    refine List.forall_mem_cons.mpr ⟨Nat.le_trans (Nat.le_max_left _ _) hpair, ?_⟩
    refine List.forall_mem_cons.mpr ⟨Nat.le_trans (Nat.le_max_right _ _) hpair, fun n hn => ?_⟩
    exact Nat.le_trans (ih n hn) (Nat.le_max_right _ _)

/-- What the limit on nesting does to the events of a node that is not too deep: nothing. -/
def IsPassed (n : Node) : Prop :=
  ∀ d read es, d + n.depth ≤ maxNesting →
    limitNesting d read (n.events ++ es) = limitNesting d (n.events.reverse ++ read) es

theorem limitNesting_flatMap {ns : List Node} (h : ∀ n ∈ ns, IsPassed n) {d : ℕ}
    (hd : ∀ n ∈ ns, d + n.depth ≤ maxNesting) (read es : List Event) :
    limitNesting d read (ns.flatMap events ++ es) =
      limitNesting d ((ns.flatMap events).reverse ++ read) es := by
  induction ns generalizing read with
  | nil => rfl
  | cons n ns ih =>
    obtain ⟨hn, hns⟩ := List.forall_mem_cons.mp h
    obtain ⟨hdn, hdns⟩ := List.forall_mem_cons.mp hd
    rw [List.flatMap_cons, List.append_assoc, hn d _ _ hdn, ih hns hdns, List.reverse_append,
      List.append_assoc]

theorem isPassed (n : Node) : IsPassed n := by
  induction n using Node.induction with
  | reference name => exact fun _ _ _ _ => rfl
  | scalar a t text => exact fun _ _ _ _ => rfl
  | sequence a t items ih =>
    intro d read es hd
    rw [depth] at hd
    have hitems : ∀ n ∈ items, d + 1 + n.depth ≤ maxNesting := fun n hn => by
      have := depth_le_itemDepth n hn
      omega
    rw [events, itemEvents_eq, List.cons_append, List.append_assoc, limitNesting, if_neg (by omega),
      limitNesting_flatMap ih hitems]
    simp [limitNesting]
  | mapping a t pairs ih =>
    intro d read es hd
    rw [depth] at hd
    have hparts : ∀ n ∈ parts pairs, d + 1 + n.depth ≤ maxNesting := fun n hn => by
      have := depth_le_pairDepth n hn
      omega
    rw [events, pairEvents_eq, List.cons_append, List.append_assoc, limitNesting, if_neg (by omega),
      limitNesting_flatMap ih hparts]
    simp [limitNesting]

theorem limitNesting_document {n : Node} (h : n.depth ≤ maxNesting) :
    limitNesting 0 [] n.document = n.document := by
  have hpassed := n.isPassed 0 [.documentStart] [.documentEnd, .streamEnd] (by omega)
  calc limitNesting 0 [] n.document
      = limitNesting 0 [.documentStart] (n.events ++ [.documentEnd, .streamEnd]) := rfl
    _ = n.document := by
      rw [hpassed, document]
      simp [limitNesting]

/-- **The limit on aliases is exact for texts.** A text with the events of a tree that is not too deep has
the value of the tree, unless the tree has more aliases than are allowed. -/
theorem read_document {text : String} {n : Node}
    (htext : Event.ofTokens (tokens text.toList) = n.document)
    (h : Event.areAnchored [] n.events = true) (hdepth : n.depth ≤ maxNesting) :
    read text = if maxAliases < n.aliasCount then .error .tooManyAliases else n.value := by
  rw [read, htext, limitNesting_document hdepth, n.ofEvents_document h]
  split_ifs <;> rfl

example : Event.ofTokens (tokens "- &a 1\n- *a\n".toList) =
    (sequence none .seq [.scalar (some "a") .int "1", .alias "a"]).document := by
  decide +kernel

end Node

end Layering.Yaml
