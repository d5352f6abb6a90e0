import Layering.Proofs.Glob.Atomicity
import Layering.Proofs.Value.Quoted

/-!
# The cache of patterns is transparent

A pattern is kept under its own text, two colons, and the text of its options. That text is closed,
whether it is a JSON text or shows options that have none, so what is left after two colons inside it is
no such text, and the pattern and the meaning of its options can be read off the key (`eq_of_key_eq`),
whatever characters they hold. What a cache holds under a key is therefore what the pattern of that key
compiles to (`Cache.IsSound`), and every request keeps it so (`Cache.IsSound.get`). Whatever requests
came before and whatever the limit of the cache is, a request gives what the pattern compiles to, or the
refusal of the pattern (`Cache.get_after`).
-/

namespace Layering.Glob

open Json Text

/-! ## Options -/

/-- Options that are none at all or a JSON object. -/
def IsRecord (options : Value) : Prop :=
  options.isTruthy = false ∨ ∃ entries, options = .map entries ∧ IsJson (.map entries)

/-- The fields of options; those that are no map have none. -/
def fields (options : Value) : List (Scalar × Value) := options.entries?.getD []

/-- Whether options let wildcards take dotted names: their field says so, or there is none. -/
def wantsDot (options : Value) : Bool :=
  ((Entries.field? "dot" (fields options)).getD (.bool true)).isTruthy

theorem fields_of_isTruthy_eq_false {options : Value} (h : options.isTruthy = false) :
    fields options = [] := by
  match options with
  | .scalar _ => rfl
  | .list _ => rfl
  | .map [] => rfl
  | .map (_ :: _) => cases h
  | .set _ => rfl

theorem isJson_fields {options : Value} (h : IsRecord options) :
    IsJson (.map (fields options)) := by
  rcases h with h | ⟨entries, rfl, h⟩
  · rw [fields_of_isTruthy_eq_false h]
    exact .map (by simp) (by simp) (by simp)
  · exact h

/-- Options that are read are none at all or a map, and their field says what they mean. -/
theorem eq_of_dotOption? {options : Value} {dot : Bool} (h : dotOption? options = some dot) :
    (options.isTruthy = false ∨ ∃ entries, options = .map entries) ∧ dot = wantsDot options := by
  by_cases ht : options.isTruthy = false
  · refine ⟨.inl ht, ?_⟩
    have hnone : dotOption? options = some true := if_pos (by simp [ht])
    rw [hnone] at h
    rw [wantsDot, fields_of_isTruthy_eq_false ht, ← Option.some.inj h]
    rfl
  · unfold dotOption? at h
    rw [if_neg (by simpa using ht)] at h
    cases options with
    | map entries =>
      refine ⟨.inr ⟨entries, rfl⟩, ?_⟩
      rw [← Option.some.inj h, wantsDot]
      simp only [fields, Value.entries?, Option.getD_some]
      cases Entries.field? "dot" entries <;> rfl
    | scalar s => cases h
    | list items => cases h
    | set members => cases h

theorem dotOption?_eq {options : Value} (h : IsRecord options) :
    dotOption? options = some (wantsDot options) := by
  have hsome : ∃ dot, dotOption? options = some dot := by
    unfold dotOption?
    rcases h with h | ⟨entries, rfl, -⟩
    · exact ⟨true, if_pos (by simp [h])⟩
    · split
      · exact ⟨_, rfl⟩
      · exact ⟨_, rfl⟩
  obtain ⟨dot, hdot⟩ := hsome
  rw [hdot, (eq_of_dotOption? hdot).2]

/-- The text of options that are read: the JSON text of their fields, if these have one. -/
theorem toList_optionsKey {options : Value}
    (h : options.isTruthy = false ∨ ∃ entries, options = .map entries) :
    (optionsKey options).toList =
      if isWritable (.map (fields options)) = true then print sortedLine (.map (fields options))
      else (Value.map (fields options)).quoted := by
  have hrecord : record? options = some (fields options) := by
    by_cases ht : options.isTruthy = false
    · rw [fields_of_isTruthy_eq_false ht]
      exact if_pos (by simp [ht])
    · obtain ⟨entries, rfl⟩ := h.resolve_left ht
      exact if_neg (by simpa using ht)
  rw [optionsKey, hrecord, Option.filter_some]
  by_cases hw : isWritable (.map (fields options)) = true
  · rw [if_pos hw, if_pos hw, String.toList_ofList]
  · rw [if_neg hw, if_neg hw]
    rcases h with h | ⟨entries, rfl⟩
    · exact absurd (by rw [fields_of_isTruthy_eq_false h]; rfl) hw
    · exact String.toList_ofList

/-! ## Keys -/

theorem Cache.toList_key (pattern : String) (options : Value) :
    (Cache.key pattern options).toList =
      pattern.toList ++ ':' :: ':' :: (optionsKey options).toList := by
  have hkey : Cache.key pattern options = pattern ++ "::" ++ optionsKey options := rfl
  simp [hkey]

theorem wantsDot_eq_of_print_eq {o o' : Value} (h : IsRecord o)
    (h' : isWritable (.map (fields o')) = true)
    (heq : print sortedLine (.map (fields o)) = print sortedLine (.map (fields o'))) :
    wantsDot o = wantsDot o' := by
  have hplain : IsPlainName sortedLine "dot".toList := by
    intro c hc
    have hmem : c = 'd' ∨ c = 'o' ∨ c = 't' := by simpa using hc
    rcases hmem with rfl | rfl | rfl <;> decide
  have hmap' := (isWritable_map_iff.mp h').2
  have hfield := field?_text_eq rfl (isJson_fields h) hplain
    (fun e he => eq_text_of_keyText_eq (hmap' e he).1 rfl (by decide)) heq
  unfold wantsDot
  cases hv : Entries.field? "dot" (fields o) with
  | none =>
    rw [hv, Option.map_none, eq_comm, Option.map_eq_none_iff] at hfield
    rw [hfield]
  | some v =>
    rw [hv, Option.map_some, eq_comm, Option.map_eq_some_iff] at hfield
    obtain ⟨v', hv', htext⟩ := hfield
    rw [hv', Option.getD_some, Option.getD_some, Bool.eq_iff_iff, ← not_iff_not,
      Bool.not_eq_true, Bool.not_eq_true]
    have hmap := (isWritable_map_iff.mp (isJson_fields h).isWritable).2
    have hw := (hmap _ (Entries.mem_of_field? hv)).2
    have hw' := (hmap' _ (Entries.mem_of_field? hv')).2
    have hline : sortedLine.indent = none := rfl
    rw [← mem_falsyTexts_iff hline hw, ← mem_falsyTexts_iff hline hw', htext]

/-- **Requests with the same key ask for the same pattern with the same meaning of the options**, if
those of one of them are no options or a JSON object and those of the other are read at all. -/
theorem eq_of_key_eq {p p' : String} {o o' : Value} {dot : Bool} (h : IsRecord o)
    (h' : dotOption? o' = some dot) (heq : Cache.key p o = Cache.key p' o') :
    p = p' ∧ wantsDot o = dot := by
  obtain ⟨hread', rfl⟩ := eq_of_dotOption? h'
  have hread := (eq_of_dotOption? (dotOption?_eq h)).1
  have hjson := (isJson_fields h).isWritable
  have hclosed : ∀ es, Closed (print sortedLine (.map es)) ∧
      (print sortedLine (.map es)).head? ≠ some ':' := by
    intro es
    refine ⟨closed_printAt sortedLine 0 _, ?_⟩
    rw [print, printAt_map rfl]
    simp
  have htexts := congrArg String.toList heq
  rw [Cache.toList_key, Cache.toList_key, toList_optionsKey hread, toList_optionsKey hread',
    if_pos hjson] at htexts
  by_cases hw' : isWritable (.map (fields o')) = true
  · rw [if_pos hw'] at htexts
    obtain ⟨hp, htext⟩ := append_colons_injective (hclosed _).1 (hclosed _).1 (hclosed _).2
      (hclosed _).2 htexts
    exact ⟨String.toList_inj.mp hp, wantsDot_eq_of_print_eq h hw' htext⟩
  · -- a map that is shown as a JSON object is one that can be written
    rw [if_neg hw'] at htexts
    have hhead : (Value.map (fields o')).quoted.head? ≠ some ':' := by
      rw [Value.quoted]
      simp
    obtain ⟨-, htext⟩ := append_colons_injective (hclosed _).1 (Value.closed_quoted _) (hclosed _).2
      hhead htexts
    have hshown : IsShownAsJson sortedLine (.map (fields o')) := ⟨0, _, hjson, htext.symm⟩
    exact absurd (IsShownAsJson.isWritable rfl _ hshown) hw'

namespace Cache

/-! ## Requests -/

theorem eq_of_validate_eq_ok {purpose pattern p : String}
    (h : validate purpose (.str pattern) = .ok p) : p = pattern := by
  unfold validate at h
  dsimp only at h
  split at h
  · cases h
  · exact (Except.ok.inj h).symm

/-- All that a request can come to: the pattern is refused, the cache holds it, its options are no
record, or it is compiled and put in, into an empty cache if the cache was full. -/
inductive Answer (c : Cache) (purpose : String) (pattern options : Value) :
    Except CacheError (Lookup × Cache × List Notice) → Prop where
  | refused {e : PatternError} (h : validate purpose pattern = .error e) :
      Answer c purpose pattern options (.error (.pattern e))
  | held {p : String} {g : Glob} (hp : validate purpose pattern = .ok p)
      (hg : c.entries.lookup (key p options) = some g) :
      Answer c purpose pattern options (.ok (⟨g, false⟩, c, []))
  | noRecord {p : String} (hp : validate purpose pattern = .ok p)
      (hnone : c.entries.lookup (key p options) = none) (hdot : dotOption? options = none) :
      Answer c purpose pattern options (.error .options)
  | compiled {p : String} {dot : Bool} {before : List (String × Glob)} {notices : List Notice}
      (hp : validate purpose pattern = .ok p) (hnone : c.entries.lookup (key p options) = none)
      (hdot : dotOption? options = some dot)
      (hbefore : c.isFull = true ∧ before = [] ∧ notices = [.cacheCleared c.limit] ∨
        c.isFull = false ∧ before = c.entries ∧ notices = []) :
      Answer c purpose pattern options
        (.ok (⟨compile dot p.toList, true⟩,
          ⟨c.limit, before ++ [(key p options, compile dot p.toList)]⟩, notices))

theorem answer_get (c : Cache) (purpose : String) (pattern options : Value) :
    Answer c purpose pattern options (c.get purpose pattern options) := by
  unfold get fetch
  rw [Work.runOn_bind, runOn_accept]
  cases hp : validate purpose pattern with
  | error e => exact .refused hp
  | ok p =>
    dsimp only [Except.mapError]
    rw [Work.runOn_bind, runOn_find]
    cases hg : c.entries.lookup (key p options) with
    | some g => exact .held hp hg
    | none =>
      dsimp only
      rw [Work.runOn_bind, runOn_readDot]
      cases hdot : dotOption? options with
      | none => exact .noRecord hp hg hdot
      | some dot =>
        dsimp only [Option.elim]
        rw [Work.runOn_bind, runOn_makeRoom]
        cases hfull : c.isFull with
        | true => exact .compiled hp hg hdot (.inl ⟨hfull, rfl, rfl⟩)
        | false => exact .compiled hp hg hdot (.inr ⟨hfull, rfl, rfl⟩)

theorem get_eq_refused_iff {c : Cache} {purpose : String} {pattern options : Value}
    {e : PatternError} :
    c.get purpose pattern options = .error (.pattern e) ↔ validate purpose pattern = .error e := by
  constructor
  · intro hget
    have hanswer := answer_get c purpose pattern options
    rw [hget] at hanswer
    cases hanswer with
    | refused he => exact he
  · intro he
    rw [get_eq_error_iff, fetch, Work.runOn_bind, runOn_accept, he]
    rfl

/-- Each entry holds, under the key of a pattern with options, what the pattern compiles to. -/
def IsSound (c : Cache) : Prop :=
  ∀ k g, (k, g) ∈ c.entries → ∃ p options dot,
    dotOption? options = some dot ∧ k = key p options ∧ g = compile dot p.toList

theorem isSound_empty (limit : ℤ) : (empty limit).IsSound := by
  intro k g hmem
  cases hmem

theorem IsSound.eq_of_lookup {c : Cache} {p : String} {options : Value} {g : Glob} (h : c.IsSound)
    (ho : IsRecord options) (hg : c.entries.lookup (key p options) = some g) :
    g = compile (wantsDot options) p.toList := by
  obtain ⟨l, l', hentries, -⟩ := List.lookup_eq_some_iff.mp hg
  obtain ⟨p', o', dot, ho', hkey, rfl⟩ := h (key p options) g (by simp [hentries])
  obtain ⟨rfl, rfl⟩ := eq_of_key_eq ho ho' hkey
  rfl

/-- A request keeps a cache sound, whatever its options are. -/
theorem IsSound.get {c next : Cache} {purpose : String} {pattern options : Value} {found : Lookup}
    {notices : List Notice} (h : c.IsSound)
    (hget : c.get purpose pattern options = .ok (found, next, notices)) : next.IsSound := by
  have hanswer := answer_get c purpose pattern options
  rw [hget] at hanswer
  cases hanswer with
  | held hp hg => exact h
  | @compiled p dot before notices hp hnone hdot hbefore =>
    intro k g hmem
    rcases List.mem_append.mp hmem with hmem | hmem
    · rcases hbefore with ⟨-, rfl, -⟩ | ⟨-, rfl, -⟩
      · cases hmem
      · exact h k g hmem
    · obtain ⟨rfl, rfl⟩ := Prod.mk.inj (List.mem_singleton.mp hmem)
      exact ⟨p, options, dot, hdot, rfl, rfl⟩

/-- In a sound cache a request for a safe pattern with a record of options gives what the pattern
compiles to. -/
theorem IsSound.exists_get {c : Cache} {purpose p : String} {pattern options : Value}
    (h : c.IsSound) (hp : validate purpose pattern = .ok p) (ho : IsRecord options) :
    ∃ found next notices, c.get purpose pattern options = .ok (found, next, notices) ∧
      found.glob = compile (wantsDot options) p.toList := by
  have hanswer := answer_get c purpose pattern options
  generalize hget : c.get purpose pattern options = answer at hanswer
  cases hanswer with
  | refused he =>
    rw [hp] at he
    cases he
  | held hp' hg =>
    cases hp.symm.trans hp'
    exact ⟨_, _, _, rfl, h.eq_of_lookup ho hg⟩
  | noRecord hp' hnone hdot =>
    rw [dotOption?_eq ho] at hdot
    cases hdot
  | compiled hp' hnone hdot hbefore =>
    cases hp.symm.trans hp'
    rw [dotOption?_eq ho] at hdot
    exact ⟨_, _, _, rfl, by rw [Option.some.inj hdot]⟩

/-- What a sound cache gives for a record of options is what the pattern compiles to. -/
theorem IsSound.eq_of_get {c next : Cache} {purpose : String} {pattern options : Value} {found : Lookup}
    {notices : List Notice} (h : c.IsSound) (ho : IsRecord options)
    (hget : c.get purpose pattern options = .ok (found, next, notices)) :
    ∃ p, validate purpose pattern = .ok p ∧
      found.glob = compile (wantsDot options) p.toList := by
  cases hp : validate purpose pattern with
  | error e =>
    rw [get_eq_refused_iff.mpr hp] at hget
    cases hget
  | ok p =>
    obtain ⟨found', next', notices', hget', hglob⟩ := h.exists_get hp ho
    cases hget.symm.trans hget'
    exact ⟨p, rfl, hglob⟩

/-! ## Histories -/

/-- What a cache may be told to do. -/
inductive Request where
  | get (purpose : String) (pattern options : Value)
  | clear

/-- The cache after a request. One that is refused leaves the cache as it is. -/
def step (c : Cache) : Request → Cache
  | .get purpose pattern options =>
    match c.get purpose pattern options with
    | .ok (_, next, _) => next
    | .error _ => c
  | .clear => c.clear

/-- The cache after requests, one after the other. -/
def after (c : Cache) (requests : List Request) : Cache := requests.foldl step c

theorem IsSound.step {c : Cache} (h : c.IsSound) (r : Request) : (c.step r).IsSound := by
  cases r with
  | get purpose pattern options =>
    unfold Cache.step
    dsimp only
    split
    · rename_i hget
      exact h.get hget
    · exact h
  | clear => exact isSound_empty c.limit

theorem IsSound.after {c : Cache} (h : c.IsSound) (requests : List Request) :
    (c.after requests).IsSound := by
  induction requests generalizing c with
  | nil => exact h
  | cons r rs ih => exact ih (h.step r)

/-- **A cache is transparent.** After any requests to a cache of any limit, with options of any kind, a
request for a text with no options or a JSON object is refused exactly when the text is no safe pattern,
and with its refusal; otherwise it gives what the pattern compiles to, with dotted names if the field
`dot` is missing or counts as true. Keys that are equal stand for the same pattern and the same choice. -/
theorem get_after (limit : ℤ) (requests : List Request) (purpose pattern : String) (options : Value)
    (ho : IsRecord options) :
    (∀ e, ((empty limit).after requests).get purpose (.str pattern) options =
        .error (.pattern e) ↔ validate purpose (.str pattern) = .error e) ∧
      (∀ p, validate purpose (.str pattern) = .ok p → ∃ found next notices,
        ((empty limit).after requests).get purpose (.str pattern) options =
          .ok (found, next, notices) ∧
        found.glob = compile (wantsDot options) pattern.toList) ∧
      ∀ pattern' options', IsRecord options' → key pattern options = key pattern' options' →
        pattern = pattern' ∧ wantsDot options = wantsDot options' := by
  refine ⟨fun e => get_eq_refused_iff, fun p hp => ?_,
    fun p' o' ho' => eq_of_key_eq ho (dotOption?_eq ho')⟩
  have hsound : ((empty limit).after requests).IsSound := (isSound_empty limit).after requests
  obtain rfl := eq_of_validate_eq_ok hp
  exact hsound.exists_get hp ho

/-- Requests for patterns that hold colons and braces themselves, one of which is refused, with options
that have a JSON text and options that have none. -/
def colonRequests : List Request :=
  [.get "layer pattern" (.str "src/*") .null,
    .get "layer pattern" (.str "src/*::\x7b\x7d") (.record [("dot", .bool false)]),
    .get "layer pattern" (.str "../*") (.record [("dot", .str "::\x7b\"dot\": 0\x7d")]),
    .clear,
    .get "layer pattern" (.str "src/*") (.map [(.int 1, .set []), (.text "'::\x7b\x7d", .null)]),
    .get "layer pattern" (.str "src/*") (.list [.int 1])]

/-- Options without dotted names, with a text that looks like the end of a key. -/
def colonOptions : Value := .record [("note", .str "\"::\x7b\x7d"), ("dot", .list [])]

theorem get_after_colons :
    IsRecord colonOptions ∧ ∃ found next notices,
      ((empty 1).after colonRequests).get "layer pattern" (.str "src/*") colonOptions =
        .ok (found, next, notices) ∧ found.glob = compile false "src/*".toList := by
  have ho : IsRecord colonOptions := by
    refine .inr ⟨_, rfl, isJson_record (by decide) ?_⟩
    simpa using ⟨.scalar rfl, .list nofun⟩
  have hvalid : validate "layer pattern" (.str "src/*") = .ok "src/*" := by
    decide
  have hdot : wantsDot colonOptions = false := by
    decide
  have hget := (get_after 1 colonRequests "layer pattern" "src/*" colonOptions ho).2.1 _ hvalid
  exact ⟨ho, hdot ▸ hget⟩

end Cache

end Layering.Glob
