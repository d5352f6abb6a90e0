import Layering.Config.File
import Layering.Proofs.Value.Entries
import Mathlib.Data.List.Chain
import Mathlib.Data.List.Nodup

/-!
# Inheritance of configurations

A configuration file may name another one as its base, which may name a base of its own, and nothing
keeps such a chain from coming back to a file or from being longer than it may be. Loading a
configuration comes to an end all the same: it depends on a bounded number of files, each of them the
base of the one before (`exists_reads`). A chain that comes back or is too long is refused
(`exists_chainFault_of_isChain`). What is taken over from any other is `inherited`, which is put together
from the last base on: in one direction `exists_lineage_of_extend_eq_ok`, in the other
`extend_of_lineage`. The fields of the outcome are those of `field_rules_inherited` and
`field?_version_inherited`.
-/

namespace Layering.Config

variable {fs fs' : FileSystem} {depth : ℕ} {chain : List Path} {path base : Path}
  {entries result : List (Scalar × Value)}

/-! ## Bases -/

/-- The entries of a configuration file name the file of a base. -/
def Names (fs : FileSystem) (path : Path) (entries : List (Scalar × Value)) (base : Path) : Prop :=
  ∃ ref, baseOf path (Entries.field "extends" entries) = .ok (some ref) ∧
    ref.textFault? = none ∧ fs.resolve ref = base

/-- A configuration file is read as a record that names the file of a base. -/
def IsBase (fs : FileSystem) (path base : Path) : Prop :=
  ∃ entries, load fs path = .ok (.map entries) ∧ Names fs path entries base

theorem eq_null_of_baseOf_eq_none {v : Value} (h : baseOf path v = .ok none) : v = .null := by
  unfold baseOf at h
  split at h
  · rfl
  · split at h <;> cases h
  · cases h

theorem nextBase_of_null (h : Entries.field "extends" entries = .null) :
    nextBase fs depth chain path entries = .ok none := by
  rw [nextBase, h]
  rfl

theorem nextBase_of_names (h : Names fs path entries base) :
    nextBase fs depth chain path entries =
      if depth = 0 then .error (.tooDeep path.text)
      else if base ∈ chain then .error (.circular path.text base.text)
      else .ok (some base) := by
  obtain ⟨ref, href, hfault, rfl⟩ := h
  simp only [nextBase, href, hfault, List.contains_iff_mem]

theorem nextBase_of_not_mem (h : Names fs path entries base) (hmem : base ∉ chain) :
    nextBase fs (depth + 1) chain path entries = .ok (some base) := by
  rw [nextBase_of_names h, if_neg depth.succ_ne_zero, if_neg hmem]

/-- There is no next base if none is named; else it is the one that is named, which may be taken and is
not on the way. -/
theorem cases_of_nextBase_eq_ok {o : Option Path}
    (h : nextBase fs depth chain path entries = .ok o) :
    (o = none ∧ Entries.field "extends" entries = .null) ∨
      ∃ base, o = some base ∧ depth ≠ 0 ∧ Names fs path entries base ∧ base ∉ chain := by
  unfold nextBase at h
  split at h
  · cases h
  · rename_i hnone
    cases h
    exact .inl ⟨rfl, eq_null_of_baseOf_eq_none hnone⟩
  · rename_i ref href
    split at h
    · cases h
    · rename_i hdepth
      split at h
      · cases h
      · rename_i hfault
        split at h
        · cases h
        · rename_i hmem
          cases h
          refine .inr ⟨_, rfl, hdepth, ⟨ref, href, hfault, rfl⟩, ?_⟩
          exact fun hchain => hmem (List.contains_iff_mem.mpr hchain)

theorem loadBase_eq_ok_iff : loadBase fs base = .ok entries ↔ load fs base = .ok (.map entries) := by
  unfold loadBase
  split
  · rename_i e he
    simp [he]
  · rename_i es hes
    simp [hes]
  · rename_i v hnot hv
    rw [hv]
    simp only [reduceCtorEq, Except.ok.injEq, false_iff]
    exact hnot entries

theorem IsBase.exists_load (h : IsBase fs path base) : ∃ entries, load fs path = .ok (.map entries) :=
  h.imp fun _ hentries => hentries.1

theorem IsBase.names (h : IsBase fs path base) (hload : load fs path = .ok (.map entries)) :
    Names fs path entries base := by
  obtain ⟨es, hes, hnames⟩ := h
  rw [hload] at hes
  cases hes
  exact hnames

theorem nextBase_eq_some_iff_names :
    nextBase fs 1 [] path entries = .ok (some base) ↔ Names fs path entries base := by
  constructor
  · intro h
    obtain ⟨hnone, -⟩ | ⟨_, hsome, -, hnames, -⟩ := cases_of_nextBase_eq_ok h
    · cases hnone
    · cases hsome
      exact hnames
  · exact fun h => nextBase_of_not_mem h List.not_mem_nil

instance : Decidable (Names fs path entries base) :=
  decidable_of_iff _ nextBase_eq_some_iff_names

instance : Decidable (IsBase fs path base) :=
  match hload : loadBase fs path with
  | .error _ => .isFalse fun h => by
      obtain ⟨entries, hentries⟩ := h.exists_load
      rw [← loadBase_eq_ok_iff, hload] at hentries
      cases hentries
  | .ok entries =>
    have hentries := loadBase_eq_ok_iff.mp hload
    decidable_of_iff (Names fs path entries base)
      ⟨fun h => ⟨entries, hentries, h⟩, fun h => h.names hentries⟩

/-! ## One step of inheritance -/

theorem extend_of_forall_ne (h : ∀ base, nextBase fs depth chain path entries ≠ .ok (some base)) :
    extend fs depth chain path entries =
      ((nextBase fs depth chain path entries).map fun _ => own entries, []) := by
  cases depth with
  | zero => rw [extend]
  | succ depth =>
    rcases hnext : nextBase fs (depth + 1) chain path entries with e | _ | base
    · simp only [extend, hnext, Except.map]
    · simp only [extend, hnext, Except.map]
    · exact absurd hnext (h base)

theorem extend_of_null (h : Entries.field "extends" entries = .null) :
    extend fs depth chain path entries = (.ok (own entries), []) := by
  have hnext := @nextBase_of_null fs depth chain path entries h
  rw [extend_of_forall_ne (by simp [hnext]), hnext]
  rfl

theorem extend_zero_of_names (h : Names fs path entries base) :
    extend fs 0 chain path entries = (.error (.tooDeep path.text), []) := by
  rw [extend, nextBase_of_names h, if_pos rfl]
  rfl

theorem extend_of_mem (h : Names fs path entries base) (hmem : base ∈ chain) :
    extend fs (depth + 1) chain path entries = (.error (.circular path.text base.text), []) := by
  rw [extend, nextBase_of_names h, if_neg depth.succ_ne_zero, if_pos hmem]

theorem extend_of_load_eq_ok (hnext : nextBase fs (depth + 1) chain path entries = .ok (some base))
    {baseEntries : List (Scalar × Value)} (hload : load fs base = .ok (.map baseEntries)) :
    extend fs (depth + 1) chain path entries =
      ((extend fs depth (chain ++ [base]) base baseEntries).1.map (overBase entries),
        .inherits path.text base.text :: (extend fs depth (chain ++ [base]) base baseEntries).2) := by
  simp only [extend, hnext, loadBase_eq_ok_iff.mpr hload]

theorem extend_of_loadBase_eq_error {e : ConfigError}
    (hnext : nextBase fs (depth + 1) chain path entries = .ok (some base))
    (hload : loadBase fs base = .error e) :
    extend fs (depth + 1) chain path entries = (.error e, [.inherits path.text base.text]) := by
  simp only [extend, hnext, hload]

/-- What is taken over is the configuration itself if it names no base. Else it names one that is not on
the way and can be read, and what that one takes over is put under the configuration. -/
theorem cases_of_extend_eq_ok (h : (extend fs depth chain path entries).1 = .ok result) :
    (Entries.field "extends" entries = .null ∧ result = own entries) ∨
      ∃ n base baseEntries inner, depth = n + 1 ∧ Names fs path entries base ∧ base ∉ chain ∧
        load fs base = .ok (.map baseEntries) ∧
        (extend fs n (chain ++ [base]) base baseEntries).1 = .ok inner ∧
        result = overBase entries inner := by
  rcases hnext : nextBase fs depth chain path entries with e | o
  · rw [extend_of_forall_ne (by simp [hnext]), hnext] at h
    cases h
  obtain ⟨-, hnull⟩ | ⟨base, rfl, hdepth, hnames, hmem⟩ := cases_of_nextBase_eq_ok hnext
  · rw [extend_of_null hnull] at h
    exact .inl ⟨hnull, (Except.ok.inj h).symm⟩
  obtain ⟨n, rfl⟩ := Nat.exists_eq_succ_of_ne_zero hdepth
  rcases hload : loadBase fs base with e | baseEntries
  · rw [extend_of_loadBase_eq_error hnext hload] at h
    cases h
  rw [loadBase_eq_ok_iff] at hload
  rw [extend_of_load_eq_ok hnext hload] at h
  rcases hinner : (extend fs n (chain ++ [base]) base baseEntries).1 with e | inner
  · rw [hinner] at h
    cases h
  · rw [hinner] at h
    exact .inr ⟨n, base, baseEntries, inner, rfl, hnames, hmem, hload, hinner,
      (Except.ok.inj h).symm⟩

/-! ## Files that are read -/

theorem resolve_congr (h : fs'.working = fs.working) : fs'.resolve = fs.resolve := by
  funext p
  simp only [FileSystem.resolve, FileSystem.namesOf, h]

theorem nextBase_congr (h : fs'.working = fs.working) :
    nextBase fs' depth chain path entries = nextBase fs depth chain path entries := by
  simp only [nextBase, resolve_congr h]

theorem loadBase_congr (h : load fs' base = load fs base) : loadBase fs' base = loadBase fs base := by
  rw [loadBase, h, loadBase]

/-- The notices of the files that are taken over, one from the other. -/
def inheritances (path : Path) (bases : List Path) : List Notice :=
  List.zipWith (fun p base => .inherits p.text base.text) (path :: bases) bases

/-- **What a configuration takes over depends on `depth` files at most**, each of them the base that the
one before names. -/
theorem exists_reads (hload : load fs path = .ok (.map entries)) :
    ∃ bases : List Path, bases.length ≤ depth ∧ (path :: bases).IsChain (IsBase fs) ∧
      (extend fs depth chain path entries).2 = inheritances path bases ∧
      ∀ fs' : FileSystem, fs'.working = fs.working → (∀ p ∈ bases, load fs' p = load fs p) →
        extend fs' depth chain path entries = extend fs depth chain path entries := by
  induction depth using Nat.strongRecOn generalizing chain path entries with
  | ind depth ih =>
    by_cases hnext : ∃ base, nextBase fs depth chain path entries = .ok (some base)
    · obtain ⟨base, hnext⟩ := hnext
      obtain ⟨hnone, -⟩ | ⟨_, hsome, hdepth, hnames, -⟩ := cases_of_nextBase_eq_ok hnext
      · cases hnone
      cases hsome
      obtain ⟨n, rfl⟩ := Nat.exists_eq_succ_of_ne_zero hdepth
      have hbase : IsBase fs path base := ⟨entries, hload, hnames⟩
      rcases hbaseLoad : loadBase fs base with e | baseEntries
      · refine ⟨[base], by simp, .cons_cons hbase (.singleton base), ?_, fun fs' hworking heq => ?_⟩
        · rw [extend_of_loadBase_eq_error hnext hbaseLoad]
          rfl
        · have hnext' := (nextBase_congr hworking).trans hnext
          have hbaseLoad' := (loadBase_congr (heq base List.mem_cons_self)).trans hbaseLoad
          rw [extend_of_loadBase_eq_error hnext hbaseLoad,
            extend_of_loadBase_eq_error hnext' hbaseLoad']
      · rw [loadBase_eq_ok_iff] at hbaseLoad
        obtain ⟨bases, hlength, hchain, hnotices, hcongr⟩ :=
          @ih n n.lt_succ_self (chain ++ [base]) base baseEntries hbaseLoad
        refine ⟨base :: bases, Nat.succ_le_succ hlength, .cons_cons hbase hchain, ?_,
          fun fs' hworking heq => ?_⟩
        · rw [extend_of_load_eq_ok hnext hbaseLoad, hnotices]
          rfl
        · have hnext' := (nextBase_congr hworking).trans hnext
          have hbaseLoad' := (heq base List.mem_cons_self).trans hbaseLoad
          rw [extend_of_load_eq_ok hnext hbaseLoad, extend_of_load_eq_ok hnext' hbaseLoad',
            hcongr fs' hworking fun p hp => heq p (List.mem_cons_of_mem base hp)]
    · -- Without a next base no other file is read.
      have hextend := extend_of_forall_ne (not_exists.mp hnext)
      refine ⟨[], Nat.zero_le _, .singleton path, by rw [hextend]; rfl, fun fs' hworking _ => ?_⟩
      rw [hextend, ← nextBase_congr hworking]
      rw [← nextBase_congr hworking] at hnext
      exact extend_of_forall_ne (not_exists.mp hnext)

/-! ## Chains that are refused -/

/-- The errors of a configuration that takes over too many others, or one of them twice. -/
def IsChainFault : ConfigError → Prop
  | .tooDeep _ => True
  | .circular _ _ => True
  | _ => False

/-- **Bases that come back or that are too many are refused**: whatever is in the files, and
whether or not the last one can be read. -/
theorem exists_chainFault_of_isChain {bases : List Path} (hload : load fs path = .ok (.map entries))
    (hchain : chain.Nodup) (hbases : (path :: bases).IsChain (IsBase fs))
    (h : ¬(chain ++ bases).Nodup ∨ depth < bases.length) :
    ∃ e, (extend fs depth chain path entries).1 = .error e ∧ IsChainFault e := by
  induction bases generalizing depth chain path entries with
  | nil =>
    rw [List.append_nil] at h
    exact absurd h (not_or.mpr ⟨not_not_intro hchain, depth.not_lt_zero⟩)
  | cons base bases ih =>
    rw [List.isChain_cons_cons] at hbases
    obtain ⟨hbase, hbases⟩ := hbases
    have hnames : Names fs path entries base := hbase.names hload
    cases depth with
    | zero => exact ⟨_, congrArg Prod.fst (extend_zero_of_names hnames), trivial⟩
    | succ depth =>
      by_cases hmem : base ∈ chain
      · exact ⟨_, congrArg Prod.fst (extend_of_mem hnames hmem), trivial⟩
      -- The base may be taken, so the fault lies further on, and the base is read to get there.
      have hchain' : (chain ++ [base]).Nodup := by
        simpa only [List.concat_eq_append] using List.Nodup.concat hmem hchain
      have h' : ¬((chain ++ [base]) ++ bases).Nodup ∨ depth < bases.length := by
        rw [List.append_assoc]
        exact h.imp id Nat.lt_of_succ_lt_succ
      obtain ⟨baseEntries, hbaseLoad⟩ : ∃ es, load fs base = .ok (.map es) := by
        cases bases with
        | nil => exact absurd hchain' (by simpa using h')
        | cons next bases => exact (List.isChain_cons_cons.mp hbases).1.exists_load
      obtain ⟨e, he, hfault⟩ := ih hbaseLoad hchain' hbases h'
      refine ⟨e, ?_, hfault⟩
      rw [extend_of_load_eq_ok (nextBase_of_not_mem hnames hmem) hbaseLoad, he]
      rfl

/-! ## Chains that are taken over -/

/-- The bases of a configuration, from its own to the one that names none, with what is in their
files. -/
inductive Lineage (fs : FileSystem) :
    Path → List (Scalar × Value) → List (Path × List (Scalar × Value)) → Prop
  | root {path : Path} {entries : List (Scalar × Value)} :
      Entries.field "extends" entries = .null → Lineage fs path entries []
  | child {path base : Path} {entries baseEntries : List (Scalar × Value)}
      {bases : List (Path × List (Scalar × Value))} :
      Names fs path entries base → load fs base = .ok (.map baseEntries) →
      Lineage fs base baseEntries bases → Lineage fs path entries ((base, baseEntries) :: bases)

/-- A configuration with all that it takes over from the configurations in a list, each of which takes
over the next. -/
def inherited (entries : List (Scalar × Value)) : List (List (Scalar × Value)) → List (Scalar × Value)
  | [] => own entries
  | base :: bases => overBase entries (inherited base bases)

/-- What is taken over comes from bases that differ from each other and from the files on the way. -/
theorem exists_lineage_of_extend_eq_ok (hchain : chain.Nodup)
    (h : (extend fs depth chain path entries).1 = .ok result) :
    ∃ bases, Lineage fs path entries bases ∧ bases.length ≤ depth ∧
      (chain ++ bases.map (·.1)).Nodup ∧ result = inherited entries (bases.map (·.2)) := by
  induction depth using Nat.strongRecOn generalizing chain path entries result with
  | ind depth ih =>
    rcases cases_of_extend_eq_ok h with
      ⟨hnull, rfl⟩ | ⟨n, base, baseEntries, inner, rfl, hnames, hmem, hload, hinner, rfl⟩
    · exact ⟨[], .root hnull, Nat.zero_le _, by simpa using hchain, rfl⟩
    · have hchain' : (chain ++ [base]).Nodup := by
        simpa only [List.concat_eq_append] using List.Nodup.concat hmem hchain
      obtain ⟨bases, hlineage, hlength, hnodup, rfl⟩ := ih n n.lt_succ_self hchain' hinner
      rw [List.append_assoc] at hnodup
      exact ⟨(base, baseEntries) :: bases, .child hnames hload hlineage, Nat.succ_le_succ hlength,
        hnodup, rfl⟩

/-- All bases are taken over if they are not too many and differ from each other and from the files on
the way. -/
theorem extend_of_lineage {bases : List (Path × List (Scalar × Value))}
    (h : Lineage fs path entries bases) (hlength : bases.length ≤ depth)
    (hnodup : (chain ++ bases.map (·.1)).Nodup) :
    (extend fs depth chain path entries).1 = .ok (inherited entries (bases.map (·.2))) := by
  induction h generalizing depth chain with
  | root hnull =>
    rw [extend_of_null hnull]
    rfl
  | @child path base entries baseEntries bases hnames hload hlineage ih =>
    cases depth with
    | zero => exact absurd hlength (Nat.not_succ_le_zero _)
    | succ depth =>
      have hmem : base ∉ chain := by
        intro hmem
        exact (List.nodup_append.mp hnodup).2.2 base hmem base List.mem_cons_self rfl
      have hnodup' : (chain ++ [base] ++ bases.map (·.1)).Nodup := by
        rw [List.append_assoc]
        exact hnodup
      have hbase := ih (Nat.le_of_succ_le_succ hlength) hnodup'
      rw [extend_of_load_eq_ok (nextBase_of_not_mem hnames hmem) hload, hbase]
      rfl

/-! ## Fields of what is taken over -/

theorem field?_own_of_ne {name : String} (h : name ≠ "extends") :
    Entries.field? name (own entries) = Entries.field? name entries :=
  Entries.field?_filter_of_ne h

theorem extends_notMem_own : Scalar.text "extends" ∉ (own entries).map (·.1) := by
  intro hmem
  obtain ⟨⟨k, v⟩, he, rfl⟩ := List.mem_map.mp hmem
  have hsame := (List.mem_filter.mp he).2
  simp [Entries.same_text_iff.mpr rfl] at hsame

theorem field_rules_overBase (entries base : List (Scalar × Value)) :
    Entries.field "rules" (overBase entries base) =
      mergeRules (Entries.field "rules" base) (Entries.field "rules" entries) := by
  have hne : "rules" ≠ "version" := by decide
  unfold overBase Entries.field
  dsimp only
  split <;> simp [Entries.field?_insert_of_ne hne, Entries.field?_insert_self]

theorem field?_version_overBase (entries base : List (Scalar × Value)) :
    Entries.field? "version" (overBase entries base) =
      (Entries.field? "version" entries).or (Entries.field? "version" base) := by
  have hmerged (v : Value) : Entries.field? "version" (Entries.insert (.text "rules") v (own entries)) =
      Entries.field? "version" entries := by
    rw [Entries.field?_insert_of_ne (by decide), field?_own_of_ne (by decide)]
  unfold overBase
  dsimp only
  rw [hmerged]
  split
  · rename_i v hnone hsome
    rw [Entries.field?_insert_self, hnone, hsome]
    rfl
  · rename_i hnot
    rw [hmerged]
    cases hown : Entries.field? "version" entries with
    | some v => rfl
    | none =>
      cases hbase : Entries.field? "version" base with
      | none => rfl
      | some v => exact absurd hbase (hnot v hown)

theorem extends_notMem_overBase (entries base : List (Scalar × Value)) :
    Scalar.text "extends" ∉ (overBase entries base).map (·.1) := by
  have hmerged (v : Value) :
      Scalar.text "extends" ∉ (Entries.insert (.text "rules") v (own entries)).map (·.1) :=
    Entries.notMem_keys_insert (by decide) extends_notMem_own
  unfold overBase
  dsimp only
  split
  · exact Entries.notMem_keys_insert (by decide) (hmerged _)
  · exact hmerged _

/-- The rules that are taken over, the rules of a file put over those of its base. -/
theorem field_rules_inherited (entries : List (Scalar × Value)) (bases : List (List (Scalar × Value))) :
    Entries.field "rules" (inherited entries bases) =
      ((entries :: bases).reverse.map (Entries.field "rules")).foldl mergeRules .null := by
  induction bases generalizing entries with
  | nil =>
    rw [inherited, Entries.field, field?_own_of_ne (by decide)]
    rfl
  | cons base bases ih =>
    rw [inherited, field_rules_overBase, ih, @List.reverse_cons _ entries (base :: bases),
      List.map_append, List.foldl_append]
    rfl

/-- The version that is taken over is the first one on the way. -/
theorem field?_version_inherited (entries : List (Scalar × Value))
    (bases : List (List (Scalar × Value))) :
    Entries.field? "version" (inherited entries bases) =
      (entries :: bases).findSome? (Entries.field? "version") := by
  induction bases generalizing entries with
  | nil => rw [inherited, field?_own_of_ne (by decide), List.findSome?_singleton]
  | cons base bases ih =>
    rw [inherited, field?_version_overBase, ih, @List.findSome?_cons _ _ entries]
    cases Entries.field? "version" entries <;> rfl

theorem extends_notMem_inherited (entries : List (Scalar × Value))
    (bases : List (List (Scalar × Value))) :
    Scalar.text "extends" ∉ (inherited entries bases).map (·.1) := by
  cases bases with
  | nil => exact extends_notMem_own
  | cons base bases => exact extends_notMem_overBase entries _

/-- A check adds a version where there is none, and changes nothing else. -/
theorem eq_of_checked_eq_ok (h : checked path entries = .ok result) :
    result = if (Entries.field? "version" entries).isSome then entries
      else Entries.insert (.text "version") (.str defaultVersion) entries := by
  unfold checked at h
  split at h
  · cases h
  · split at h
    · split at h
      · rename_i v hv
        cases h
        simp [hv]
      · rename_i hv
        cases h
        simp [hv]
    · cases h

theorem field?_version_of_checked (h : checked path entries = .ok result) :
    Entries.field? "version" result =
      some ((Entries.field? "version" entries).getD (.str defaultVersion)) := by
  rw [eq_of_checked_eq_ok h]
  cases hv : Entries.field? "version" entries with
  | none => simp [Entries.field?_insert_self]
  | some v => simp [hv]

theorem field_rules_of_checked (h : checked path entries = .ok result) :
    Entries.field "rules" result = Entries.field "rules" entries := by
  rw [eq_of_checked_eq_ok h]
  split
  · rfl
  · rw [Entries.field, Entries.field?_insert_of_ne (by decide), Entries.field]

theorem extends_notMem_of_checked (h : checked path entries = .ok result)
    (hmem : Scalar.text "extends" ∉ entries.map (·.1)) :
    Scalar.text "extends" ∉ result.map (·.1) := by
  rw [eq_of_checked_eq_ok h]
  split
  · exact hmem
  · exact Entries.notMem_keys_insert (by decide) hmem

/-! ## Loading -/

theorem loadRules_of_load (hload : load fs path = .ok (.map entries)) :
    loadRules fs path =
      ((extend fs maxDepth [fs.resolve path] path entries).1.bind (checked path),
        (extend fs maxDepth [fs.resolve path] path entries).2) := by
  simp only [loadRules, hload]

/-- A file that is no record is refused, whatever the other files are. -/
theorem exists_error_of_forall_load_ne (h : ∀ entries, load fs path ≠ .ok (.map entries)) :
    ∃ e, ∀ fs' : FileSystem, load fs' path = load fs path → loadRules fs' path = (.error e, []) := by
  cases hload : load fs path with
  | error e => exact ⟨e, fun fs' hload' => by simp only [loadRules, hload']⟩
  | ok v =>
    refine ⟨.notAMapping path.text, fun fs' hload' => ?_⟩
    unfold loadRules
    rw [hload']
    split
    · rename_i hv
      cases hv
    · rename_i entries hv
      exact absurd (hload.trans hv) (h entries)
    · rfl

theorem exists_reads_of_loadRules (fs : FileSystem) (path : Path) :
    ∃ bases : List Path, bases.length ≤ maxDepth ∧ (path :: bases).IsChain (IsBase fs) ∧
      (loadRules fs path).2 = inheritances path bases ∧
      ∀ fs' : FileSystem, fs'.working = fs.working → (∀ p ∈ path :: bases, load fs' p = load fs p) →
        loadRules fs' path = loadRules fs path := by
  by_cases hmap : ∃ entries, load fs path = .ok (.map entries)
  · obtain ⟨entries, hload⟩ := hmap
    obtain ⟨bases, hlength, hbases, hnotices, hcongr⟩ :=
      @exists_reads fs maxDepth [fs.resolve path] path entries hload
    refine ⟨bases, hlength, hbases, by rw [loadRules_of_load hload, hnotices], ?_⟩
    intro fs' hworking heq
    have hload' : load fs' path = .ok (.map entries) := (heq path List.mem_cons_self).trans hload
    rw [loadRules_of_load hload', loadRules_of_load hload, resolve_congr hworking,
      hcongr fs' hworking fun p hp => heq p (List.mem_cons_of_mem path hp)]
  · obtain ⟨e, he⟩ := exists_error_of_forall_load_ne (not_exists.mp hmap)
    refine ⟨[], Nat.zero_le _, .singleton path, by rw [he fs rfl]; rfl, ?_⟩
    intro fs' _ heq
    rw [he fs rfl, he fs' (heq path List.mem_cons_self)]

/-- **Inheritance of configurations.** Loading a configuration depends on the file itself and on
`maxDepth` bases at most, whatever the files are. It is refused if the bases come back to a file or
are more than that. Otherwise its outcome is that of the check of what is taken over, and if it
passes, it names no base, its rules are those of all files put over each other, beginning with the last
base, and its version is the first one on the way. -/
theorem loadRules_inherits (fs : FileSystem) (path : Path) :
    (∃ bases : List Path, bases.length ≤ maxDepth ∧ (path :: bases).IsChain (IsBase fs) ∧
      (loadRules fs path).2 = inheritances path bases ∧
      ∀ fs' : FileSystem, fs'.working = fs.working → (∀ p ∈ path :: bases, load fs' p = load fs p) →
        loadRules fs' path = loadRules fs path) ∧
    (∀ bases : List Path, (path :: bases).IsChain (IsBase fs) →
      ¬(fs.resolve path :: bases).Nodup ∨ maxDepth < bases.length →
      ∃ e, (loadRules fs path).1 = .error e ∧ IsChainFault e) ∧
    (∀ entries bases, load fs path = .ok (.map entries) → Lineage fs path entries bases →
      bases.length ≤ maxDepth → (fs.resolve path :: bases.map (·.1)).Nodup →
      (loadRules fs path).1 = checked path (inherited entries (bases.map (·.2)))) ∧
    ∀ result, (loadRules fs path).1 = .ok result →
      ∃ entries bases, load fs path = .ok (.map entries) ∧ Lineage fs path entries bases ∧
        bases.length ≤ maxDepth ∧ (fs.resolve path :: bases.map (·.1)).Nodup ∧
        Scalar.text "extends" ∉ result.map (·.1) ∧
        Entries.field "rules" result =
          ((entries :: bases.map (·.2)).reverse.map (Entries.field "rules")).foldl mergeRules .null ∧
        Entries.field? "version" result =
          some (((entries :: bases.map (·.2)).findSome? (Entries.field? "version")).getD
            (.str defaultVersion)) := by
  refine ⟨exists_reads_of_loadRules fs path, ?_, ?_, ?_⟩
  · intro bases hbases h
    obtain ⟨entries, hload⟩ : ∃ entries, load fs path = .ok (.map entries) := by
      cases bases with
      | nil => simp at h
      | cons base bases => exact (List.isChain_cons_cons.mp hbases).1.exists_load
    obtain ⟨e, he, hfault⟩ :=
      exists_chainFault_of_isChain hload (List.nodup_singleton (fs.resolve path)) hbases h
    refine ⟨e, ?_, hfault⟩
    rw [loadRules_of_load hload, he]
    rfl
  · intro entries bases hload hlineage hlength hnodup
    rw [loadRules_of_load hload, extend_of_lineage hlineage hlength hnodup]
    rfl
  · intro result h
    obtain ⟨entries, hload⟩ : ∃ entries, load fs path = .ok (.map entries) := by
      by_contra hmap
      obtain ⟨e, he⟩ := exists_error_of_forall_load_ne (not_exists.mp hmap)
      rw [he fs rfl] at h
      cases h
    rw [loadRules_of_load hload] at h
    rcases hextend : (extend fs maxDepth [fs.resolve path] path entries).1 with e | extended
    · rw [hextend] at h
      cases h
    obtain ⟨bases, hlineage, hlength, hnodup, rfl⟩ :=
      exists_lineage_of_extend_eq_ok (List.nodup_singleton (fs.resolve path)) hextend
    rw [hextend] at h
    refine ⟨entries, bases, hload, hlineage, hlength, hnodup, ?_, ?_, ?_⟩
    · exact extends_notMem_of_checked h (extends_notMem_inherited _ _)
    · rw [field_rules_of_checked h, field_rules_inherited]
    · rw [field?_version_of_checked h, field?_version_inherited]

/-- Two configurations, each of which names the other as its base, and one with a base that has a
version. -/
def baseFiles : FileSystem where
  root := .dir [
    ("a.yml", .file "extends: b.yml"),
    ("b.yml", .file "extends: ./a.yml"),
    ("base.yml", .file "version: 2.0\nrules: [{name: n, layer: l, may_import_from: []}]"),
    ("child.yml", .file "extends: base.yml")]
  working := []

theorem loadRules_inherits_baseFiles :
    ([⟨1, ["a.yml"]⟩, ⟨1, ["b.yml"]⟩, ⟨1, ["a.yml"]⟩] : List Path).IsChain (IsBase baseFiles) ∧
    (∃ e, (loadRules baseFiles ⟨1, ["a.yml"]⟩).1 = .error e ∧ IsChainFault e) ∧
    ∃ result entries bases, (loadRules baseFiles ⟨1, ["child.yml"]⟩).1 = .ok result ∧
      load baseFiles ⟨1, ["child.yml"]⟩ = .ok (.map entries) ∧
      Lineage baseFiles ⟨1, ["child.yml"]⟩ entries bases ∧ bases.length ≤ maxDepth ∧
      checked ⟨1, ["child.yml"]⟩ (inherited entries (bases.map (·.2))) = .ok result := by
  have hcycle : ([⟨1, ["a.yml"]⟩, ⟨1, ["b.yml"]⟩, ⟨1, ["a.yml"]⟩] : List Path).IsChain
      (IsBase baseFiles) := by
    decide +kernel
  have hrepeated : ¬(baseFiles.resolve ⟨1, ["a.yml"]⟩ ::
      ([⟨1, ["b.yml"]⟩, ⟨1, ["a.yml"]⟩] : List Path)).Nodup := by
    decide +kernel
  have hok : (loadRules baseFiles ⟨1, ["child.yml"]⟩).1.isOk = true := by decide +kernel
  obtain ⟨-, hrefused, -, -⟩ := loadRules_inherits baseFiles ⟨1, ["a.yml"]⟩
  obtain ⟨-, -, htaken, hresult⟩ := loadRules_inherits baseFiles ⟨1, ["child.yml"]⟩
  refine ⟨hcycle, hrefused _ hcycle (.inl hrepeated), ?_⟩
  rcases hload : (loadRules baseFiles ⟨1, ["child.yml"]⟩).1 with e | result
  · rw [hload] at hok
    cases hok
  · obtain ⟨entries, bases, hentries, hlineage, hlength, hnodup, -⟩ := hresult result hload
    have hchecked := htaken entries bases hentries hlineage hlength hnodup
    exact ⟨result, entries, bases, rfl, hentries, hlineage, hlength, hchecked.symm.trans hload⟩

end Layering.Config
