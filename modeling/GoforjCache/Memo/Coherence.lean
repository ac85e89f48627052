import GoforjCache.Foundation.Transition
import GoforjCache.Memo.Store
import GoforjCache.Memory.Store

/-!
# Memo - Coherence under concurrency

A memo entry, and the answer a read is about to publish, is the backend's content
after some number of mutations, and every later mutation of its key has not run its
invalidation yet.  The invalidation of such a mutation removes the entry and moves the
generation, so the answer of a read that overlapped it is not published.

Main results:

- Theorem `step_effect`: what a step of a call can do, as one of nine effects.
- Theorem `inv_step`: the history invariant.
- Theorem `memo_coherence`: a memo entry equals the backend's content unless a
  mutation of its key awaits its invalidation, and a read that starts after a mutation
  returned observes it or a later one.
-/

namespace GoforjCache
namespace Memo

open Function Foundation.Transition

variable {σ ι : Type} [DecidableEq ι] {B : Backend σ} {s s' : State σ ι}

/-! ## What a step can do -/

variable {op : Op} {key : Key} {e : Event ι} {m : Nat} {c : ι} {content : Option Bytes}
  {backend : σ} {res : Res}

/-- The backend call of a mutation keeps the content of other keys. -/
theorem Backend.perform_frame (B : Backend σ) (b : σ) (h : op.touches key = false) :
    B.content (B.perform b op).1 key = B.content b key := by
  unfold Backend.perform
  split
  · exact B.frame _ _ _ h
  · have hdelete := B.frame b (.delete _) key h
    split <;> rename_i heq <;> rw [heq] at hdelete <;> exact hdelete
  · exact B.frame _ _ _ h

/-- A backend call that was not applied keeps the content. -/
theorem Backend.perform_unapplied (B : Backend σ) (b : σ) (h : (B.perform b op).2.applied = false) :
    B.content (B.perform b op).1 = B.content b := by
  unfold Backend.perform at h ⊢
  split at h
  · exact B.unapplied _ _ h
  · split at h
    · rename_i err heq
      have hun := B.unapplied b (.delete _) (by rw [heq]; rfl)
      rw [heq] at hun
      exact hun
    · cases h
  · exact B.unapplied _ _ h

/-- The effects a step of call `c` can have. -/
inductive Effect (B : Backend σ) (s : State σ ι) (c : ι) : State σ ι → Prop where
  | start (op : Op) (hc : s.calls c = .idle) : Effect B s c (s.put c (.started op))
  | hit (key : Key) (content : Option Bytes) (hc : s.calls c = .started (.get key))
      (hitem : s.table.items key = some content) :
      Effect B s c (s.put c (.done (.get key) (.value content)))
  | miss (key : Key) (hc : s.calls c = .started (.get key))
      (hitem : s.table.items key = none) :
      Effect B s c (s.put c (.reading key s.table.generation s.bumps))
  | fetch (key : Key) (generation : UInt64) (began : Nat) (backend : σ)
      (hc : s.calls c = .reading key generation began)
      (hcontent : B.content backend = B.content s.backend) :
      Effect B s c ({ s with backend := backend }.put c
        (.fetched key generation began (B.content s.backend key)))
  | fail (key : Key) (generation : UInt64) (began : Nat) (backend : σ) (err : CacheError)
      (hc : s.calls c = .reading key generation began)
      (hcontent : B.content backend = B.content s.backend) :
      Effect B s c ({ s with backend := backend }.put c (.done (.get key) (.error err)))
  | refuse (op : Op) (res : Res) (backend : σ) (hc : s.calls c = .started op)
      (hop : ∀ key, op ≠ .get key) (hres : res.applied = false)
      (hcontent : B.content backend = B.content s.backend) :
      Effect B s c ({ s with backend := backend }.put c (.done op res))
  | commit (op : Op) (res : Res) (backend : σ) (hc : s.calls c = .started op)
      (hop : ∀ key, op ≠ .get key)
      (hframe : ∀ key, op.touches key = false → B.content backend key = B.content s.backend key) :
      Effect B s c (s.commit B c op backend res)
  | publish (key : Key) (generation : UInt64) (began : Nat) (content : Option Bytes)
      (hc : s.calls c = .fetched key generation began content) :
      Effect B s c ({ s with table := s.table.publish key content generation }.put c
        (.done (.get key) (.value content)))
  | invalidate (op : Op) (res : Res) (hc : s.calls c = .applied op res) :
      Effect B s c ({ s with table := s.table.invalidate op, bumps := s.bumps + 1 }.put c
        (.done op res))

/-- The call that takes a step. -/
def Event.target : Event ι → ι
  | start c _ | probe c | call c | finish c => c

/-- Every step has one of the nine effects on the call that takes it. -/
theorem step_effect (h : step B s e = some s') : Effect B s e.target s' := by
  cases e with
  | start c op =>
    simp only [step] at h
    split at h
    · rename_i hc
      cases h
      exact Effect.start op hc
    · contradiction
  | probe c =>
    simp only [step] at h
    split at h
    · rename_i key hc
      split at h <;> rename_i hitem <;> cases h
      · exact Effect.hit key _ hc hitem
      · exact Effect.miss key hc hitem
    · contradiction
  | call c =>
    simp only [step] at h
    split at h
    · rename_i key generation began hc
      have hcontent := B.unapplied s.backend (.get key)
      rcases B.get_value s.backend key with hval | ⟨err, herr⟩
      · rw [hval] at h hcontent
        cases h
        exact Effect.fetch key generation began _ hc (hcontent rfl)
      · rw [herr] at h hcontent
        cases h
        exact Effect.fail key generation began _ err hc (hcontent rfl)
    · contradiction
    · rename_i op hget hc
      have hop : ∀ key, op ≠ .get key := fun key hkey => hget key hkey
      split at h <;> rename_i happ <;> cases h
      · exact Effect.commit op _ _ hc hop fun key hkey => B.perform_frame _ hkey
      · have hun := Bool.eq_false_of_not_eq_true happ
        exact Effect.refuse op _ _ hc hop hun (B.perform_unapplied _ hun)
    · contradiction
  | finish c =>
    simp only [step] at h
    split at h
    · rename_i key generation began content hc
      cases h
      exact Effect.publish key generation began content hc
    · rename_i op res hc
      cases h
      exact Effect.invalidate op res hc
    · contradiction

/-! ## The history invariant -/

/-- The call took effect and has not run its invalidation. -/
def State.Pending (s : State σ ι) (c : ι) : Prop := ∃ op res, s.calls c = .applied op res

/-- `content` was the backend's content of `key` after `n` mutations, and
every later mutation of the key awaits its invalidation. -/
structure State.ReflectsAt (s : State σ ι) (key : Key) (content : Option Bytes) (n : Nat) :
    Prop where
  le : n ≤ s.version
  eq : s.snapshot n key = content
  later : ∀ m, n < m → m ≤ s.version → ∀ c op, s.writer m = some (c, op) →
    op.touches key = true → s.Pending c

/-- The content is the backend's up to mutations that await their invalidation. -/
def State.Reflects (s : State σ ι) (key : Key) (content : Option Bytes) : Prop :=
  ∃ n, s.ReflectsAt key content n

/-- What a call in flight knows about the history. -/
def State.CallOk (s : State σ ι) (c : ι) : Call → Prop
  | .idle => True
  | .started _ => True
  | .reading _ generation began => generation = UInt64.ofNat began ∧ began ≤ s.bumps
  | .fetched key generation began content =>
    generation = UInt64.ofNat began ∧ began ≤ s.bumps ∧ (began = s.bumps → s.Reflects key content)
  | .applied op _ =>
    (∀ key, op ≠ .get key) ∧ ∃ m, 0 < m ∧ m ≤ s.version ∧ s.writer m = some (c, op)
  | .done op res =>
    res.applied = true → ∃ m, 0 < m ∧ m ≤ s.version ∧ s.writer m = some (c, op)

/-- The invariant of a memo store. -/
structure Inv (B : Backend σ) (s : State σ ι) : Prop where
  generation : s.table.generation = UInt64.ofNat s.bumps
  current : s.snapshot s.version = B.content s.backend
  framed : ∀ m, m < s.version → ∃ c op, s.writer (m + 1) = some (c, op) ∧
    (∃ res, s.calls c = .applied op res ∨ s.calls c = .done op res) ∧
    ∀ key, op.touches key = false → s.snapshot (m + 1) key = s.snapshot m key
  entry : ∀ key content, s.table.items key = some content → s.Reflects key content
  call : ∀ c, s.CallOk c (s.calls c)

omit [DecidableEq ι] in
/-- A new memo store satisfies the invariant. -/
theorem State.Initial.inv (h : s.Initial B) : Inv B s where
  generation := by
    rw [h.table, h.bumps]
    rfl
  current := by
    rw [h.version]
    exact h.snapshot
  framed m hm := by
    rw [h.version] at hm
    omega
  entry key content hitem := by
    rw [h.table] at hitem
    cases hitem
  call c := by
    rw [h.calls]
    trivial

omit [DecidableEq ι] in
/-- The mutation that made a version is on its way back or has returned. -/
theorem Inv.author (hs : Inv B s) (hpos : 0 < m) (hm : m ≤ s.version)
    (hw : s.writer m = some (c, op)) :
    ∃ res, s.calls c = .applied op res ∨ s.calls c = .done op res := by
  obtain ⟨c', op', hw', hres, -⟩ := hs.framed (m - 1) (by omega)
  rw [Nat.sub_add_cancel hpos, hw] at hw'
  cases hw'
  exact hres

/-- The history stands. -/
structure State.SameHistory (s s' : State σ ι) : Prop where
  version : s'.version = s.version
  snapshot : s'.snapshot = s.snapshot
  writer : s'.writer = s.writer

omit [DecidableEq ι] in
/-- Reflected content survives as long as the history stands and no mutation of the
key runs its invalidation. -/
theorem State.Reflects.mono (h : s.Reflects key content) (hhistory : s.SameHistory s')
    (hpending : ∀ m c op, 0 < m → m ≤ s.version → s.writer m = some (c, op) →
      op.touches key = true → s.Pending c → s'.Pending c) : s'.Reflects key content := by
  obtain ⟨n, hn⟩ := h
  refine ⟨n, by rw [hhistory.version]; exact hn.le, by rw [hhistory.snapshot]; exact hn.eq, ?_⟩
  intro m hlt hle c op hw htouch
  rw [hhistory.version] at hle
  rw [hhistory.writer] at hw
  exact hpending m c op (by omega) hle hw htouch (hn.later m hlt hle c op hw htouch)

/-- Reflected content survives a new mutation, which awaits its invalidation. -/
theorem State.Reflects.commit (h : s.Reflects key content) (hc : ¬s.Pending c) :
    (s.commit B c op backend res).Reflects key content := by
  obtain ⟨n, hn⟩ := h
  have hle := hn.le
  refine ⟨n, ?_, ?_, ?_⟩
  · change n ≤ s.version + 1
    omega
  · change update s.snapshot _ _ n key = content
    rw [update_of_ne (by omega)]
    exact hn.eq
  · intro m hlt hm c' op' hw htouch
    change update s.writer _ _ m = some (c', op') at hw
    change m ≤ s.version + 1 at hm
    by_cases hnew : m = s.version + 1
    · subst hnew
      rw [update_self] at hw
      cases hw
      exact ⟨op, res, update_self _ _ _⟩
    · rw [update_of_ne hnew] at hw
      obtain ⟨op₁, res₁, hcalls⟩ := hn.later m hlt (by omega) c' op' hw htouch
      have hne : c' ≠ c := by
        rintro rfl
        exact hc ⟨op₁, res₁, hcalls⟩
      exact ⟨op₁, res₁, (update_of_ne hne _ _).trans hcalls⟩

section

omit [DecidableEq ι]

/-- Reflected content is the current one when no mutation of the key awaits its
invalidation. -/
theorem Inv.reflects_current (hs : Inv B s) (h : s.Reflects key content) :
    content = B.content s.backend key ∨
      ∃ c op res, s.calls c = .applied op res ∧ op.touches key = true := by
  obtain ⟨n, hn⟩ := h
  by_cases hquiet : ∃ c op res, s.calls c = .applied op res ∧ op.touches key = true
  · exact Or.inr hquiet
  · left
    -- from version n on no mutation touched the key
    have hchain : ∀ m, n ≤ m → m ≤ s.version → s.snapshot m key = content := by
      intro m hnm
      induction m, hnm using Nat.le_induction with
      | base => exact fun _ => hn.eq
      | succ m hnm ih =>
        intro hm
        obtain ⟨c, op, hw, -, hframe⟩ := hs.framed m (by omega)
        have hmiss : op.touches key = false := by
          by_contra htouch
          have htouch' := Bool.eq_true_of_not_eq_false htouch
          obtain ⟨op', res', hcalls⟩ := hn.later (m + 1) (by omega) hm c op hw htouch'
          obtain ⟨res, hcall | hcall⟩ := hs.author (by omega) hm hw
          · exact hquiet ⟨c, op, res, hcall, htouch'⟩
          · rw [hcalls] at hcall
            cases hcall
        rw [hframe key hmiss]
        exact ih (by omega)
    rw [← hs.current, hchain s.version hn.le le_rfl]

/-! ## Steps keep the invariant -/

/-- The call has neither taken effect nor returned. -/
def State.Early (s : State σ ι) (c : ι) : Prop :=
  ∀ op res, s.calls c ≠ .applied op res ∧ s.calls c ≠ .done op res

theorem State.Early.not_pending (h : s.Early c) : ¬s.Pending c := by
  rintro ⟨op, res, hc⟩
  exact (h op res).1 hc

/-- The author of a version is not such a call. -/
theorem State.Early.ne {u : ι} (h : s.Early c)
    (hu : s.calls u = .applied op res ∨ s.calls u = .done op res) : u ≠ c := by
  rintro rfl
  rcases hu with hu | hu
  · exact (h op res).1 hu
  · exact (h op res).2 hu

/-- The versions stay framed while the history stands and their authors stay on their way
back or returned. -/
theorem Inv.framed_mono (hs : Inv B s) (hhistory : s.SameHistory s')
    (hauthor : ∀ c op res, s.calls c = .applied op res ∨ s.calls c = .done op res →
      ∃ res', s'.calls c = .applied op res' ∨ s'.calls c = .done op res')
    (m : Nat) (hm : m < s'.version) :
    ∃ c op, s'.writer (m + 1) = some (c, op) ∧
      (∃ res, s'.calls c = .applied op res ∨ s'.calls c = .done op res) ∧
      ∀ key, op.touches key = false → s'.snapshot (m + 1) key = s'.snapshot m key := by
  rw [hhistory.version] at hm
  rw [hhistory.writer, hhistory.snapshot]
  obtain ⟨c, op, hw, ⟨res, hc⟩, hframe⟩ := hs.framed m hm
  exact ⟨c, op, hw, hauthor c op res hc, hframe⟩

/-- What a call knows survives a step of another call: the history may grow, and the
invalidation count may move as long as the call's answer still reflects the backend
whenever it can be published. -/
theorem State.CallOk.mono {pc : Call} (h : s.CallOk c pc) (hbumps : s.bumps ≤ s'.bumps)
    (hversion : s.version ≤ s'.version) (hwriter : ∀ m, m ≤ s.version → s'.writer m = s.writer m)
    (hreflects : ∀ key content, s'.bumps = s.bumps → s.Reflects key content →
      s'.Reflects key content) : s'.CallOk c pc := by
  have hkept : ∀ op, (∃ m, 0 < m ∧ m ≤ s.version ∧ s.writer m = some (c, op)) →
      ∃ m, 0 < m ∧ m ≤ s'.version ∧ s'.writer m = some (c, op) := by
    rintro op ⟨m, hpos, hm, hw⟩
    exact ⟨m, hpos, hm.trans hversion, (hwriter m hm).trans hw⟩
  cases pc with
  | idle => trivial
  | started op => trivial
  | reading key generation began => exact ⟨h.1, h.2.trans hbumps⟩
  | fetched key generation began content =>
    refine ⟨h.1, h.2.1.trans hbumps, ?_⟩
    intro hb
    have hle := h.2.1
    have heq : s'.bumps = s.bumps := by omega
    exact hreflects _ _ heq (h.2.2 (hb.trans heq))
  | applied op res => exact ⟨h.1, hkept op h.2⟩
  | done op res => exact fun happ => hkept op (h happ)

end

/-- A step that leaves the history alone keeps the invariant: the call that takes it
has no effect behind it, and what it puts into the table reflects the backend. -/
theorem Inv.put (hs : Inv B s) {table : Table} {pc : Call} (hearly : s.Early c)
    (hcontent : B.content backend = B.content s.backend)
    (hgen : table.generation = s.table.generation)
    (hitems : ∀ key content, table.items key = some content → s.Reflects key content)
    (hpc : s.CallOk c pc) : Inv B ({ s with backend := backend, table := table }.put c pc) := by
  generalize hs' : ({ s with backend := backend, table := table }.put c pc) = s'
  have hhistory : s.SameHistory s' := by
    rw [← hs']
    exact ⟨rfl, rfl, rfl⟩
  have hbumps : s'.bumps = s.bumps := by rw [← hs']; rfl
  have hother : ∀ u, u ≠ c → s'.calls u = s.calls u := by
    intro u hu
    rw [← hs']
    exact update_of_ne hu _ _
  have hreflects : ∀ key content, s.Reflects key content → s'.Reflects key content := by
    intro key content h
    refine h.mono hhistory ?_
    rintro m u op - - - - ⟨op', res, hu⟩
    exact ⟨op', res, (hother u (hearly.ne (Or.inl hu))).trans hu⟩
  have hknown : ∀ u pc', s.CallOk u pc' → s'.CallOk u pc' := by
    intro u pc' h
    exact h.mono hbumps.ge hhistory.version.ge (fun m _ => by rw [hhistory.writer])
      (fun key content _ => hreflects key content)
  refine ⟨?_, ?_, ?_, ?_, ?_⟩
  · rw [hbumps, ← hs.generation, ← hgen, ← hs']
    rfl
  · rw [hhistory.snapshot, hhistory.version, hs.current, ← hcontent, ← hs']
    rfl
  · refine hs.framed_mono hhistory ?_
    intro u op res hu
    refine ⟨res, ?_⟩
    rw [hother u (hearly.ne hu)]
    exact hu
  · intro key content hitem
    rw [← hs'] at hitem
    exact hreflects key content (hitems key content hitem)
  · intro u
    by_cases hu : u = c
    · subst hu
      have hcalls : s'.calls u = pc := by
        rw [← hs']
        exact update_self _ _ _
      rw [hcalls]
      exact hknown u pc hpc
    · rw [hother u hu]
      exact hknown u _ (hs.call u)

/-- A mutation that takes effect keeps the invariant. -/
theorem Inv.commit (hs : Inv B s) (hearly : s.Early c) (hop : ∀ key, op ≠ .get key)
    (hframe : ∀ key, op.touches key = false →
      B.content backend key = B.content s.backend key) : Inv B (s.commit B c op backend res) := by
  have hreflects : ∀ key content, s.Reflects key content →
      (s.commit B c op backend res).Reflects key content :=
    fun key content h => h.commit hearly.not_pending
  have hold : ∀ m, m ≤ s.version → (s.commit B c op backend res).writer m = s.writer m :=
    fun m hm => update_of_ne (by omega) _ _
  refine ⟨hs.generation, update_self _ _ _, ?_, ?_, ?_⟩
  · intro m hm
    change m < s.version + 1 at hm
    change ∃ u op', update s.writer (s.version + 1) _ (m + 1) = some (u, op') ∧
      (∃ res', update s.calls c _ u = _ ∨ update s.calls c _ u = _) ∧
      ∀ key, _ → update s.snapshot (s.version + 1) _ (m + 1) key =
        update s.snapshot (s.version + 1) _ m key
    rw [update_of_ne (by omega : m ≠ s.version + 1)]
    by_cases hnew : m = s.version
    · subst hnew
      refine ⟨c, op, update_self _ _ _, ⟨res, Or.inl (update_self _ _ _)⟩, ?_⟩
      intro key hkey
      rw [update_self, hframe key hkey, hs.current]
    · obtain ⟨u, op', hw, ⟨res', hu⟩, hfr⟩ := hs.framed m (by omega)
      have hne := hearly.ne hu
      rw [update_of_ne (by omega : m + 1 ≠ s.version + 1),
        update_of_ne (by omega : m + 1 ≠ s.version + 1)]
      exact ⟨u, op', hw, ⟨res', by rw [update_of_ne hne]; exact hu⟩, hfr⟩
  · intro key content hitem
    exact hreflects key content (hs.entry key content hitem)
  · intro u
    change State.CallOk _ u (update s.calls c (.applied op res) u)
    by_cases hu : u = c
    · subst hu
      rw [update_self]
      exact ⟨hop, s.version + 1, by omega, le_rfl, update_self _ _ _⟩
    · rw [update_of_ne hu]
      exact (hs.call u).mono le_rfl (Nat.le_succ _) hold fun key content _ => hreflects key content

/-- An invalidation keeps the invariant: the entries it leaves belong to keys its
mutation did not touch, and no read that overlapped it can publish. -/
theorem Inv.invalidate (hs : Inv B s) (hc : s.calls c = .applied op res) :
    Inv B ({ s with table := s.table.invalidate op, bumps := s.bumps + 1 }.put c
      (.done op res)) := by
  have hself := hs.call c
  rw [hc] at hself
  obtain ⟨hop, hrecorded⟩ := hself
  generalize hs' : ({ s with table := s.table.invalidate op, bumps := s.bumps + 1 }.put c
      (.done op res)) = s'
  have hhistory : s.SameHistory s' := by
    rw [← hs']
    exact ⟨rfl, rfl, rfl⟩
  have hbumps : s'.bumps = s.bumps + 1 := by rw [← hs']; rfl
  have hother : ∀ u, u ≠ c → s'.calls u = s.calls u := by
    intro u hu
    rw [← hs']
    exact update_of_ne hu _ _
  have hcalls : s'.calls c = .done op res := by
    rw [← hs']
    exact update_self _ _ _
  refine ⟨?_, ?_, ?_, ?_, ?_⟩
  · have hgen : s'.table.generation = s.table.generation + 1 := by
      rw [← hs']
      exact s.table.invalidate_generation hop
    rw [hgen, hs.generation, hbumps]
    simp
  · rw [hhistory.snapshot, hhistory.version, hs.current, ← hs']
    rfl
  · refine hs.framed_mono hhistory ?_
    intro u op' res' hu
    by_cases hne : u = c
    · subst hne
      rw [hc] at hu
      rcases hu with hu | hu
      · cases hu
        exact ⟨res, Or.inr hcalls⟩
      · cases hu
    · rw [hother u hne]
      exact ⟨res', hu⟩
  · intro key content hitem
    have hitems : s'.table.items key = if op.touches key then none else s.table.items key := by
      rw [← hs']
      exact s.table.invalidate_items hop key
    rw [hitems] at hitem
    obtain ⟨hmiss, hitem⟩ := Option.ite_none_left_eq_some.mp hitem
    refine (hs.entry key content hitem).mono hhistory ?_
    rintro m u op' hpos hm hw htouch ⟨op₁, res₁, hu⟩
    have hne : u ≠ c := by
      rintro rfl
      obtain ⟨res', hu' | hu'⟩ := hs.author hpos hm hw
      · rw [hc] at hu'
        cases hu'
        exact hmiss htouch
      · rw [hc] at hu'
        cases hu'
    exact ⟨op₁, res₁, (hother u hne).trans hu⟩
  · intro u
    by_cases hu : u = c
    · subst hu
      rw [hcalls]
      intro _
      rw [hhistory.version, hhistory.writer]
      exact hrecorded
    · rw [hother u hu]
      refine (hs.call u).mono (by omega) hhistory.version.ge (fun m _ => by rw [hhistory.writer]) ?_
      intro key content hb
      omega

/-- Fewer than `2 ^ 64` invalidations ran since the snapshot of a read that is
about to publish. -/
def Short (s : State σ ι) (e : Event ι) : Prop :=
  ∀ key generation began content,
    s.calls e.target = .fetched key generation began content → s.bumps < began + 2 ^ 64

/-- Two counts less than `2 ^ 64` apart with the same low 64 bits are equal. -/
theorem eq_of_ofNat_eq {a b : Nat} (hle : a ≤ b) (hlt : b < a + 2 ^ 64)
    (h : UInt64.ofNat a = UInt64.ofNat b) : a = b := by
  have hmod : a % 2 ^ 64 = b % 2 ^ 64 := by
    have htoNat := congrArg UInt64.toNat h
    simpa using htoNat
  omega

/-- Every step keeps the invariant as long as reads are short. -/
theorem inv_step (hs : Inv B s) (hshort : Short s e) (h : step B s e = some s') : Inv B s' := by
  have hcase := step_effect h
  have hcall := hs.call e.target
  cases hcase with
  | start op hc =>
    exact hs.put (by simp [State.Early, hc]) rfl rfl hs.entry trivial
  | hit key content hc hitem =>
    exact hs.put (by simp [State.Early, hc]) rfl rfl hs.entry
      (by simp [State.CallOk, Res.applied])
  | miss key hc hitem =>
    exact hs.put (by simp [State.Early, hc]) rfl rfl hs.entry ⟨hs.generation, le_rfl⟩
  | fetch key generation began backend hc hcontent =>
    rw [hc] at hcall
    refine hs.put (by simp [State.Early, hc]) hcontent rfl hs.entry ⟨hcall.1, hcall.2, ?_⟩
    intro _
    refine ⟨s.version, le_rfl, by rw [hs.current], ?_⟩
    intro m hlt hle
    omega
  | fail key generation began backend err hc hcontent =>
    exact hs.put (by simp [State.Early, hc]) hcontent rfl hs.entry
      (by simp [State.CallOk, Res.applied])
  | refuse op res backend hc hop hres hcontent =>
    exact hs.put (by simp [State.Early, hc]) hcontent rfl hs.entry
      (by simp [State.CallOk, hres])
  | commit op res backend hc hop hframe =>
    exact hs.commit (by simp [State.Early, hc]) hop hframe
  | publish key generation began content hc =>
    rw [hc] at hcall
    obtain ⟨hgen, hle, hreflects⟩ := hcall
    refine hs.put (by simp [State.Early, hc]) rfl ?_ ?_ (by simp [State.CallOk, Res.applied])
    · unfold Table.publish
      split <;> rfl
    · intro k v hitem
      unfold Table.publish at hitem
      split at hitem
      · rename_i heq
        have hnow : began = s.bumps :=
          eq_of_ofNat_eq hle (hshort _ _ _ _ hc) (by rw [← hgen, ← heq, hs.generation])
        by_cases hk : k = key
        · subst hk
          simp only [update_self, Option.some.injEq] at hitem
          subst hitem
          exact hreflects hnow
        · simp only [update_of_ne hk] at hitem
          exact hs.entry k v hitem
      · exact hs.entry k v hitem
  | invalidate op res hc => exact hs.invalidate hc

/-! ## What a read observes -/

/-- The history only grows, and a call that returned stays as it is. -/
structure State.Extends (s s' : State σ ι) : Prop where
  version : s.version ≤ s'.version
  snapshot : ∀ n, n ≤ s.version → s'.snapshot n = s.snapshot n
  writer : ∀ n, n ≤ s.version → s'.writer n = s.writer n
  done : ∀ c op res, s.calls c = .done op res → s'.calls c = .done op res

/-- A step that touches the history at its end only extends it. -/
theorem Effect.extends (h : Effect B s c s') : s.Extends s' := by
  have hdone : ∀ pc, (∀ op res, s.calls c ≠ .done op res) → ∀ u op res,
      s.calls u = .done op res → update s.calls c pc u = .done op res := by
    intro pc hc u op res hu
    have hne : u ≠ c := by
      rintro rfl
      exact hc op res hu
    rw [update_of_ne hne, hu]
  cases h with
  | commit op res backend hc hop hframe =>
    refine ⟨Nat.le_succ _, ?_, ?_, hdone _ (by simp [hc])⟩
    · exact fun n hn => update_of_ne (by omega) _ _
    · exact fun n hn => update_of_ne (by omega) _ _
  | start op hc | hit key content hc hitem | miss key hc hitem
  | fetch key generation began backend hc hcontent
  | fail key generation began backend err hc hcontent
  | refuse op res backend hc hop hres hcontent
  | publish key generation began content hc | invalidate op res hc =>
    exact ⟨le_rfl, fun _ _ => rfl, fun _ _ => rfl, hdone _ (by simp [hc])⟩

/-- What the read `g` of `key` has in its hands is the backend's content after
mutation `m` or a later one. -/
def State.Observes (s : State σ ι) (g : ι) (key : Key) (m : Nat) : Prop :=
  ∀ content, ((∃ generation began, s.calls g = .fetched key generation began content) ∨
      s.calls g = .done (.get key) (.value content)) →
    ∃ n, m ≤ n ∧ n ≤ s.version ∧ s.snapshot n key = content

/-- Mutation `m` of `key` has returned. -/
structure State.Returned (s : State σ ι) (key : Key) (m : Nat) : Prop where
  le : m ≤ s.version
  done : ∃ c op res, s.writer m = some (c, op) ∧ op.touches key = true ∧ s.calls c = .done op res

omit [DecidableEq ι] in
/-- A mutation that returned stays so. -/
theorem State.Returned.extends (h : s.Returned key m) (hext : s.Extends s') :
    s'.Returned key m := by
  obtain ⟨c, op, res, hw, htouch, hc⟩ := h.done
  exact ⟨h.le.trans hext.version, c, op, res, (hext.writer m h.le).trans hw, htouch,
    hext.done c op res hc⟩

/-- Once a mutation returned, a read that is not yet holding an older content keeps
observing it or a later one. -/
theorem observes_step {g : ι} (hs : Inv B s) (hret : s.Returned key m) (hobs : s.Observes g key m)
    (h : step B s e = some s') : s'.Observes g key m := by
  have heffect := step_effect h
  have hext := heffect.extends
  -- a version of the old history is one of the new history
  have hkeep : ∀ content, (∃ n, m ≤ n ∧ n ≤ s.version ∧ s.snapshot n key = content) →
      ∃ n, m ≤ n ∧ n ≤ s'.version ∧ s'.snapshot n key = content := by
    rintro content ⟨n, hmn, hn, heq⟩
    exact ⟨n, hmn, hn.trans hext.version, by rw [hext.snapshot n hn]; exact heq⟩
  by_cases hg : g = e.target
  · subst hg
    intro content hcontent
    apply hkeep
    cases heffect with
    | start op hc => simp [State.put] at hcontent
    | miss k hc hitem => simp [State.put] at hcontent
    | hit k v hc hitem =>
      simp only [State.put, update_self, Call.done.injEq, Op.get.injEq,
        Res.value.injEq, reduceCtorEq, exists_false, false_or] at hcontent
      obtain ⟨rfl, rfl⟩ := hcontent
      obtain ⟨n, hn⟩ := hs.entry k v hitem
      refine ⟨n, ?_, hn.le, hn.eq⟩
      by_contra hlt
      obtain ⟨c, op, res, hw, htouch, hc'⟩ := hret.done
      obtain ⟨op', res', hpending⟩ := hn.later m (by omega) hret.le c op hw htouch
      rw [hc'] at hpending
      cases hpending
    | fetch k generation began backend hc hbackend =>
      simp only [State.put, update_self, Call.fetched.injEq, reduceCtorEq, or_false] at hcontent
      obtain ⟨_, _, rfl, -, -, rfl⟩ := hcontent
      exact ⟨s.version, hret.le, le_rfl, by rw [hs.current]⟩
    | fail k generation began backend err hc hbackend => simp [State.put] at hcontent
    | refuse op res backend hc hop hres hbackend =>
      simp only [State.put, update_self, Call.done.injEq, reduceCtorEq,
        exists_false, false_or] at hcontent
      exact absurd hcontent.1 (hop key)
    | commit op res backend hc hop hframe => simp [State.commit] at hcontent
    | publish k generation began v hc =>
      simp only [State.put, update_self, Call.done.injEq, Op.get.injEq,
        Res.value.injEq, reduceCtorEq, exists_false, false_or] at hcontent
      obtain ⟨rfl, rfl⟩ := hcontent
      exact hobs v (Or.inl ⟨generation, began, hc⟩)
    | invalidate op res hc =>
      have hcall := hs.call e.target
      rw [hc] at hcall
      simp only [State.put, update_self, Call.done.injEq, reduceCtorEq,
        exists_false, false_or] at hcontent
      exact absurd hcontent.1 (hcall.1 key)
  · have hcalls : s'.calls g = s.calls g := by
      cases heffect <;> exact update_of_ne hg _ _
    intro content hcontent
    rw [hcalls] at hcontent
    exact hkeep content (hobs content hcontent)

/--
Coherence of one memo store over any backend with atomic calls, in every state that any
interleaving of its calls reaches, as long as fewer than `2 ^ 64` invalidations run
during one read:

- the last version of the history is the backend's content;
- a memo entry equals the backend's content of its key, unless a mutation that touches
  the key has taken effect and not run its invalidation;
- a `Get` that starts after a mutation of its key returned, whatever happens
  meanwhile, answers with the content after that mutation or a later one.
-/
theorem memo_coherence {s₀ : State σ ι} {es : List (Event ι)} (hinit : s₀.Initial B)
    (hshort : Along (step B) Short s₀ es) (hrun : run (step B) s₀ es = some s) :
    s.snapshot s.version = B.content s.backend ∧
    (∀ key content, s.table.items key = some content →
      content = B.content s.backend key ∨
        ∃ c op res, s.calls c = .applied op res ∧ op.touches key = true) ∧
    (∀ c op res key g, s.calls c = .done op res → res.applied = true →
      op.touches key = true → s.calls g = .idle →
      ∃ m, s.writer m = some (c, op) ∧
        ∀ es' s' content, Along (step B) Short s es' → run (step B) s es' = some s' →
          s'.calls g = .done (.get key) (.value content) →
          ∃ n, m ≤ n ∧ n ≤ s'.version ∧ s'.snapshot n key = content) := by
  have hs : Inv B s :=
    run_preserves_along (fun s e t hs hshort h => inv_step hs hshort h) hinit.inv hshort hrun
  refine ⟨hs.current, fun key content hitem => hs.reflects_current (hs.entry key content hitem), ?_⟩
  intro c op res key g hc happ htouch hg
  have hcall := hs.call c
  rw [hc] at hcall
  obtain ⟨m, -, hm, hw⟩ := hcall happ
  refine ⟨m, hw, ?_⟩
  intro es' s' content hshort' hrun' hdone
  -- along the second run the mutation stays returned and the read observes it
  have hstart : Inv B s ∧ s.Returned key m ∧ s.Observes g key m := by
    refine ⟨hs, ⟨hm, c, op, res, hw, htouch, hc⟩, ?_⟩
    intro content hcontent
    simp [hg] at hcontent
  have hstep : ∀ (u : State σ ι) e v, (Inv B u ∧ u.Returned key m ∧ u.Observes g key m) →
      Short u e → step B u e = some v → Inv B v ∧ v.Returned key m ∧ v.Observes g key m := by
    rintro u e v ⟨hu, hret, hobs⟩ hsh hstep
    exact ⟨inv_step hu hsh hstep, hret.extends (step_effect hstep).extends,
      observes_step hu hret hobs hstep⟩
  have hfinal := run_preserves_along hstep hstart hshort' hrun'
  exact hfinal.2.2 content (Or.inr hdone)

/-! ## Short runs over the memory store -/

/-- A run of fewer than `2 ^ 64` steps has short reads only. -/
theorem along_short_of_length {es : List (Event ι)} (h : s.bumps + es.length < 2 ^ 64) :
    Along (step B) Short s es := by
  induction es generalizing s with
  | nil => trivial
  | cons e es ih =>
    rw [List.length_cons] at h
    refine ⟨?_, ?_⟩
    · intro key generation began content _
      omega
    · intro t hstep
      have hbumps : t.bumps ≤ s.bumps + 1 := by
        cases step_effect hstep <;> simp [State.put, State.commit]
      exact ih (by omega)

/-- The memory store at an instant is a backend: nothing expires while the clock
stands. -/
def memoryBackend (d : DefaultTTL) (now : Instant) : Backend Memory.Items where
  content := fun m key => Memory.get m now key
  exec := Memory.exec d now
  isLockStore := true
  get_value := fun m key => Or.inl rfl
  frame := by
    intro m op key h
    have hframe := Memory.exec_frame h d now m
    simp only [Memory.get, Foundation.ExpiringMap.get, hframe]
  unapplied := by
    intro m op h
    simp only [Memory.exec_unapplied h]

/-- A read that overlaps a `Set` of its key, and the `Set` itself. -/
def overlap : List (Event Nat) :=
  [.start 0 (.get (ascii "k")), .probe 0, .call 0,
    .start 1 (.set (ascii "k") (ascii "v") 60), .call 1, .finish 1]

/-- The overlapping read ends, and another one starts. -/
def afterwards : List (Event Nat) :=
  [.finish 0, .start 2 (.get (ascii "k")), .probe 2, .call 2, .finish 2]

/-- An empty memo store over an empty memory store. -/
def emptyMemo : State Memory.Items Nat where
  backend := fun _ => none
  table := Table.empty
  calls := fun _ => .idle
  bumps := 0
  version := 0
  snapshot := fun _ _ => none
  writer := fun _ => none

/-- The memory store of the run below. -/
def overlapBackend : Backend Memory.Items := memoryBackend (DefaultTTL.normalize 0) 0

/-- The memo store when the `Set` has returned. -/
def overlapEnd : State Memory.Items Nat :=
  (run (step overlapBackend) emptyMemo overlap).getD emptyMemo

/-- The memo store when both reads have returned. -/
def afterwardsEnd : State Memory.Items Nat :=
  (run (step overlapBackend) overlapEnd afterwards).getD emptyMemo

/-- The read that started before the `Set` publishes nothing stale: the next one
observes the `Set`. -/
theorem memo_coherence_overlap :
    run (step overlapBackend) emptyMemo overlap = some overlapEnd ∧
      run (step overlapBackend) overlapEnd afterwards = some afterwardsEnd ∧
      afterwardsEnd.calls 0 = .done (.get (ascii "k")) (.value none) ∧
      afterwardsEnd.calls 2 = .done (.get (ascii "k")) (.value (some (ascii "v"))) ∧
      ∃ m n, overlapEnd.writer m = some (1, .set (ascii "k") (ascii "v") 60) ∧ m ≤ n ∧
        n ≤ afterwardsEnd.version ∧
        afterwardsEnd.snapshot n (ascii "k") = some (ascii "v") := by
  have hrun : run (step overlapBackend) emptyMemo overlap = some overlapEnd := rfl
  have hrun' : run (step overlapBackend) overlapEnd afterwards = some afterwardsEnd := rfl
  have hinit : emptyMemo.Initial overlapBackend := ⟨rfl, fun _ => rfl, rfl, rfl, rfl⟩
  have hread : afterwardsEnd.calls 2 = .done (.get (ascii "k")) (.value (some (ascii "v"))) := by
    decide
  refine ⟨hrun, hrun', by decide, hread, ?_⟩
  obtain ⟨m, hw, hobs⟩ := (memo_coherence hinit (along_short_of_length (by decide)) hrun).2.2
    1 (.set (ascii "k") (ascii "v") 60) .done (ascii "k") 2 (by decide) rfl (by decide) (by decide)
  obtain ⟨n, hn⟩ := hobs afterwards _ _ (along_short_of_length (by decide)) hrun' hread
  exact ⟨m, n, hw, hn⟩

end Memo
end GoforjCache
