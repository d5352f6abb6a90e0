import Layering.Glob.Cache

/-!
# Requests are all or nothing

Work on a cache may fail, and a failure takes back nothing. Work that only reads
(`Work.OnlyReads`) leaves the cache as it is even when it fails, and work that succeeds whatever it
finds (`Work.Succeeds`) is never left half done. A request reads the pattern, the entry and the
options first, and by the time it empties the cache or puts a pattern in, nothing can fail any more.
So a request that fails has changed nothing (`isAtomic_fetch`), and its answer says all that has
become of the cache (`get_eq_ok_iff`, `get_eq_error_iff`).
-/

namespace Layering.Glob.Cache

variable {α β : Type} {now next : Cache × List Notice}

namespace Work

variable {w : Work α} {f : α → Work β}

/-- Work that changes nothing, not even when it fails. -/
def OnlyReads (w : Work α) : Prop := ∀ now, (w.runOn now).2 = now

/-- Work that succeeds, whatever it starts from. -/
def Succeeds (w : Work α) : Prop := ∀ now, ∃ a next, w.runOn now = (.ok a, next)

/-- Work that changes nothing unless it succeeds. -/
def IsAtomic (w : Work α) : Prop := ∀ now e next, w.runOn now = (.error e, next) → next = now

theorem succeeds_pure (a : α) : (pure a : Work α).Succeeds := fun now => ⟨a, now, rfl⟩

theorem Succeeds.bind (h : w.Succeeds) (hf : ∀ a, (f a).Succeeds) : (w >>= f).Succeeds := by
  intro now
  obtain ⟨a, next, hw⟩ := h now
  rw [runOn_bind, hw]
  exact hf a next

theorem Succeeds.isAtomic (h : w.Succeeds) : w.IsAtomic := by
  intro now e next hw
  obtain ⟨a, next', hok⟩ := h now
  cases hok.symm.trans hw

/-- What is read first may fail: nothing has been changed until then. -/
theorem OnlyReads.bind (h : w.OnlyReads) (hf : ∀ a, (f a).IsAtomic) : (w >>= f).IsAtomic := by
  intro now e next hbind
  have hread := h now
  rw [runOn_bind] at hbind
  rcases hw : w.runOn now with ⟨e' | a, now'⟩
  · rw [hw] at hbind hread
    cases hbind
    exact hread
  · rw [hw] at hbind hread
    obtain rfl : now' = now := hread
    exact hf a now' e next hbind

end Work

/-! ## Requests -/

variable (purpose : String) (pattern options : Value)

theorem onlyReads_accept : (accept purpose pattern).OnlyReads := by
  intro now
  rw [runOn_accept]

theorem onlyReads_find (k : String) : (find k).OnlyReads := by
  intro now
  rw [runOn_find]

theorem onlyReads_readDot : (readDot options).OnlyReads := by
  intro now
  rw [runOn_readDot]

theorem succeeds_makeRoom : makeRoom.Succeeds := fun _ => ⟨(), _, rfl⟩

theorem succeeds_store (k : String) (g : Glob) : (store k g).Succeeds := fun _ => ⟨(), _, rfl⟩

/-- **A request that fails has changed nothing.** -/
theorem isAtomic_fetch : (fetch purpose pattern options).IsAtomic := by
  unfold fetch
  refine (onlyReads_accept purpose pattern).bind fun p => (onlyReads_find _).bind fun held => ?_
  cases held with
  | some g => exact (Work.succeeds_pure _).isAtomic
  | none =>
    -- from here on, only the options may fail, and they are read before the cache is changed
    refine (onlyReads_readDot options).bind fun dot => Work.Succeeds.isAtomic ?_
    exact succeeds_makeRoom.bind fun _ => (succeeds_store _ _).bind fun _ => Work.succeeds_pure _

variable {purpose pattern options} {c : Cache} {found : Lookup} {e : CacheError}

theorem get_eq_ok_iff :
    c.get purpose pattern options = .ok (found, next) ↔
      (fetch purpose pattern options).runOn (c, []) = (.ok found, next) := by
  unfold get
  obtain ⟨e | found', next'⟩ := (fetch purpose pattern options).runOn (c, [])
  · simp
  · simp

/-- A request fails with the cache that it was made to. -/
theorem get_eq_error_iff :
    c.get purpose pattern options = .error e ↔
      (fetch purpose pattern options).runOn (c, []) = (.error e, c, []) := by
  unfold get
  rcases hfetch : (fetch purpose pattern options).runOn (c, []) with ⟨e' | found, now⟩
  · obtain rfl := isAtomic_fetch purpose pattern options (c, []) e' now hfetch
    simp
  · simp

end Layering.Glob.Cache
