import Layering.Proofs.Glob.Containment
import Layering.Proofs.Glob.Transparency
import Mathlib.Data.List.Nodup

/-!
# What a cache holds at all times

A request leaves a cache as it is or puts one entry in, under a key that was not there, and into a
cache that has room for it or has just been emptied. A cache with a positive limit therefore never
outgrows it, holds no key twice, and holds keys of safe patterns only (`IsKept`), and every request
keeps it so (`IsKept.step`). What a request that fails has done is not undone, but it has done
nothing (`perform_eq_step`), and a request that succeeds gives what the cache then holds under its
key (`lookup_of_get`). Together these hold after any requests (`kept_after_requests`).
-/

namespace Layering.Glob

/-- What is accepted is a text, and is accepted for every purpose. -/
theorem accepted_of_validate_eq_ok {purpose p : String} {pattern : Value}
    (h : validate purpose pattern = .ok p) :
    pattern = .str p ∧ ∀ purpose', validate purpose' (.str p) = .ok p := by
  have htext : pattern = .str p := by
    unfold validate at h
    split at h
    · split at h
      · cases h
      · cases h
        rfl
    · cases h
  subst htext
  refine ⟨rfl, fun purpose' => ?_⟩
  exact validate_eq_ok_iff_fault?.mpr (validate_eq_ok_iff_fault?.mp h)

namespace Cache

variable {limit : ℤ} {c next : Cache} {purpose p k : String} {pattern options : Value}
  {found : Lookup} {notices : List Notice}

/-! ## One request -/

theorem lookup_eq_none_iff : c.entries.lookup k = none ↔ k ∉ c.keys := by
  simp only [List.lookup_eq_none_iff, keys, List.mem_map, bne_iff_ne, not_exists, not_and]
  exact forall₂_congr fun _ _ => ne_comm

/-- A request that succeeds gives what the cache then holds under its key. -/
theorem lookup_of_get (h : c.get purpose pattern options = .ok (found, next, notices)) :
    ∃ p, pattern = .str p ∧ next.entries.lookup (key p options) = some found.glob := by
  have hanswer := answer_get c purpose pattern options
  rw [h] at hanswer
  cases hanswer with
  | held hp hg => exact ⟨_, (accepted_of_validate_eq_ok hp).1, hg⟩
  | @compiled p dot before notices hp hnone hdot hbefore =>
    have habsent : before.lookup (key p options) = none := by
      rcases hbefore with ⟨-, rfl, -⟩ | ⟨-, rfl, -⟩
      · rfl
      · exact hnone
    refine ⟨p, (accepted_of_validate_eq_ok hp).1, ?_⟩
    rw [List.lookup_append, habsent, Option.none_or, List.lookup_cons_self]

/-- What holds of a cache at all times. -/
structure IsKept (limit : ℤ) (c : Cache) : Prop where
  limit_eq : c.limit = limit
  length_le : (c.entries.length : ℤ) ≤ limit
  nodup_keys : c.keys.Nodup
  exists_key : ∀ k ∈ c.keys, ∃ p options,
    (∀ purpose, validate purpose (.str p) = .ok p) ∧ k = key p options

theorem isKept_empty (h : 0 ≤ limit) : (empty limit).IsKept limit where
  limit_eq := rfl
  length_le := h
  nodup_keys := List.nodup_nil
  exists_key := List.forall_mem_nil _

theorem IsKept.clear (h : c.IsKept limit) : c.clear.IsKept limit where
  limit_eq := h.limit_eq
  length_le := (Int.natCast_nonneg _).trans h.length_le
  nodup_keys := List.nodup_nil
  exists_key := List.forall_mem_nil _

/-- A cache with room for it may take an entry under a new key. -/
theorem IsKept.insert (h : c.IsKept limit) (hroom : (c.entries.length : ℤ) < limit)
    (hp : ∀ purpose, validate purpose (.str p) = .ok p) (hnew : key p options ∉ c.keys)
    (g : Glob) : IsKept limit ⟨c.limit, c.entries ++ [(key p options, g)]⟩ where
  limit_eq := h.limit_eq
  length_le := by
    rw [List.length_append, List.length_singleton]
    omega
  nodup_keys := by
    rw [keys, List.map_append]
    refine h.nodup_keys.append (List.nodup_singleton _) ?_
    exact List.disjoint_singleton.mpr hnew
  exists_key k hk := by
    rw [keys, List.map_append] at hk
    rcases List.mem_append.mp hk with hk | hk
    · exact h.exists_key k hk
    · exact ⟨p, options, hp, List.mem_singleton.mp hk⟩

theorem IsKept.get (h : c.IsKept limit) (hlimit : 1 ≤ limit)
    (hget : c.get purpose pattern options = .ok (found, next, notices)) : next.IsKept limit := by
  have hanswer := answer_get c purpose pattern options
  rw [hget] at hanswer
  cases hanswer with
  | held hp hg => exact h
  | compiled hp hnone hdot hbefore =>
    have haccepted := (accepted_of_validate_eq_ok hp).2
    -- an emptied cache has room for one entry as the limit is positive, any other as it is not full
    rcases hbefore with ⟨-, rfl, -⟩ | ⟨hfull, rfl, -⟩
    · refine h.clear.insert ?_ haccepted List.not_mem_nil _
      exact hlimit
    · refine h.insert ?_ haccepted (lookup_eq_none_iff.mp hnone) _
      have hlt : ¬c.limit ≤ (c.entries.length : ℤ) := of_decide_eq_false hfull
      rw [h.limit_eq] at hlt
      omega

/-! ## Any requests -/

theorem IsKept.step (h : c.IsKept limit) (hlimit : 1 ≤ limit) (r : Request) :
    (c.step r).IsKept limit := by
  cases r with
  | get purpose pattern options =>
    unfold Cache.step
    dsimp only
    split
    · rename_i hget
      exact h.get hlimit hget
    · exact h
  | clear => exact h.clear

/-- The cache as it is left by a request, whether it succeeds or fails. -/
def perform (c : Cache) : Request → Cache
  | .get purpose pattern options => ((fetch purpose pattern options).runOn (c, [])).2.1
  | .clear => c.clear

theorem perform_eq_step (c : Cache) (r : Request) : c.perform r = c.step r := by
  cases r with
  | get purpose pattern options =>
    unfold perform Cache.step
    dsimp only
    split
    · rename_i hget
      rw [get_eq_ok_iff.mp hget]
    · rename_i hget
      rw [get_eq_error_iff.mp hget]
  | clear => rfl

/-- The cache of a limit as it is left by requests, one after the other. -/
def reached (limit : ℤ) (requests : List Request) : Cache := requests.foldl perform (empty limit)

theorem isKept_reached (hlimit : 1 ≤ limit) (requests : List Request) :
    (reached limit requests).IsKept limit := by
  have hrun : ∀ c : Cache, c.IsKept limit → (requests.foldl perform c).IsKept limit := by
    induction requests with
    | nil => exact fun c h => h
    | cons r rs ih =>
      intro c h
      exact ih _ (perform_eq_step c r ▸ h.step hlimit r)
  exact hrun _ (isKept_empty (by omega))

/-- **What a cache holds at all times.** After any requests to a cache whose limit is at least one,
the cache holds no more entries than that, no key twice, and only keys that begin with an accepted
pattern and two colons. A further request that fails, be it for its pattern or for its options,
leaves the cache as it is and gives no notice. After one that succeeds, the cache holds its key, and
under it what the request gave. -/
theorem kept_after_requests (limit : ℤ) (hlimit : 1 ≤ limit) (requests : List Request) :
    ((reached limit requests).entries.length : ℤ) ≤ limit ∧
      (reached limit requests).keys.Nodup ∧
      (∀ k ∈ (reached limit requests).keys, ∃ p,
        (∀ purpose, validate purpose (.str p) = .ok p) ∧ (p ++ "::").toList <+: k.toList) ∧
      ∀ purpose pattern options next notices,
        (∀ e, (fetch purpose pattern options).runOn (reached limit requests, []) =
          (.error e, next, notices) → next = reached limit requests ∧ notices = []) ∧
        ∀ found, (fetch purpose pattern options).runOn (reached limit requests, []) =
          (.ok found, next, notices) → ∃ p, pattern = .str p ∧ key p options ∈ next.keys ∧
            next.entries.lookup (key p options) = some found.glob := by
  have hkept := isKept_reached hlimit requests
  refine ⟨hkept.length_le, hkept.nodup_keys, fun k hk => ?_, ?_⟩
  · obtain ⟨p, options, hp, rfl⟩ := hkept.exists_key k hk
    refine ⟨p, hp, (optionsKey options).toList, ?_⟩
    simp [toList_key]
  · intro purpose pattern options next notices
    constructor
    · intro e hfetch
      exact Prod.mk.inj (isAtomic_fetch purpose pattern options _ e _ hfetch)
    · intro found hfetch
      obtain ⟨p, hp, hlookup⟩ := lookup_of_get (get_eq_ok_iff.mpr hfetch)
      refine ⟨p, hp, by_contra fun hnot => ?_, hlookup⟩
      rw [lookup_eq_none_iff.mpr hnot] at hlookup
      cases hlookup

/-- Requests that fill a cache of two entries, and two that are refused. -/
def fillingRequests : List Request :=
  [.get "layer pattern" (.str "src/ui") .null,
    .get "layer pattern" (.str "../ui") .null,
    .get "layer pattern" (.str "src/*::\x7b") (.record [("dot", .bool false)]),
    .get "layer pattern" (.int 5) .null]

/-- The answer of the cache, which is full, to a request for one more pattern. -/
def fullAnswer (options : Value) : Except CacheError Lookup × Cache × List Notice :=
  (fetch "layer pattern" (.str "docs") options).runOn (reached 2 fillingRequests, [])

/-- One more pattern empties the cache, but not if its options are no record. -/
theorem kept_after_requests_fullCache :
    (reached 2 fillingRequests).keys =
        ["src/ui::\x7b\x7d", "src/*::\x7b::\x7b\"dot\": false\x7d"] ∧
      ((reached 2 fillingRequests).entries.length : ℤ) ≤ 2 ∧
      (∃ e, fullAnswer (.list [.int 1]) = (.error e, reached 2 fillingRequests, [])) ∧
      ∃ found next notices, fullAnswer .null = (.ok found, next, notices) ∧
        next.keys = ["docs::\x7b\x7d"] ∧
        next.entries.lookup (key "docs" .null) = some found.glob := by
  obtain ⟨hlength, -, -, hfetch⟩ := kept_after_requests 2 (by decide) fillingRequests
  refine ⟨by decide +kernel, hlength, ?_, ?_⟩
  · have herror : (fullAnswer (.list [.int 1])).1.isOk = false := by decide +kernel
    rcases hrun : fullAnswer (.list [.int 1]) with ⟨e | found, next, notices⟩
    · obtain ⟨rfl, rfl⟩ := (hfetch _ _ _ next notices).1 e hrun
      exact ⟨e, rfl⟩
    · rw [hrun] at herror
      cases herror
  · have hok : (fullAnswer .null).1.isOk = true := by decide +kernel
    have hkeys : (fullAnswer .null).2.1.keys = ["docs::\x7b\x7d"] := by decide +kernel
    rcases hrun : fullAnswer .null with ⟨e | found, next, notices⟩
    · rw [hrun] at hok
      cases hok
    · rw [hrun] at hkeys
      obtain ⟨p, hp, -, hlookup⟩ := (hfetch _ _ _ next notices).2 found hrun
      cases hp
      exact ⟨found, next, notices, rfl, hkeys, hlookup⟩

end Cache

end Layering.Glob
