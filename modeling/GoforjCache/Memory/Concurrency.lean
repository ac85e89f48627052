import GoforjCache.Foundation.Linearization
import GoforjCache.Foundation.Transition
import GoforjCache.Memory.Store

/-!
# Memory - Concurrent calls of the in-process store

Any number of calls on one `memoryStore`, interleaved at the granularity of single calls
of the go-cache engine.  `Increment`, `Decrement`, `LockAcquire` and
`LockRelease` run under `memoryStore.mu`; the others go to the engine without it.  The
engine's janitor may collect dead entries between any two steps.

Main results:

- Theorem `memory_linearizable`: when every section that writes still finds what it had
  read, the calls are linearizable, each at one of its engine calls.
- Theorem `increment_undoes_set`: a `Set` that completes between the read and the
  write of an `Increment` is lost, and no sequential order explains it.
-/

namespace GoforjCache
namespace Memory
namespace Concurrent

open Function Foundation Foundation.Transition Foundation.Linearization

/-! ## Calls in flight -/

/-- The bodies that run under the mutex.  `Decrement` is `Increment` with the negated
delta. -/
inductive Critical where
  | counter (key : Key) (delta : Int64) (ttl : Duration)
  | acquire (key : Key) (owner : Bytes) (ttl : Duration)
  | release (key : Key) (owner : Bytes)
deriving DecidableEq

/-- The body a call runs under the mutex, if it takes it. -/
def underMutex : Op → Option Critical
  | .increment key delta ttl => some (.counter key delta ttl)
  | .decrement key delta ttl => some (.counter key (-delta) ttl)
  | .lockAcquire key owner ttl => some (.acquire key owner ttl)
  | .lockRelease key owner => some (.release key owner)
  | _ => none

/-- Program counter of one call. -/
inductive Call where
  | idle
  /-- Called; nothing has been done yet. -/
  | waiting (id : Nat) (op : Op)
  /-- In the loop of `DeleteMany`. -/
  | deleting (id : Nat) (keys rest : List Key)
  /-- The mutex is taken. -/
  | inside (id : Nat) (op : Op) (body : Critical)
  /-- `readInt64` has returned a number. -/
  | counting (id : Nat) (op : Op) (key : Key) (delta : Int64) (ttl : Duration) (current : Int64)
  /-- `LockRelease` has read its own owner. -/
  | releasing (id : Nat) (op : Op) (key : Key) (owner : Bytes)
  /-- The last engine call is done; the mutex may still be held. -/
  | finished (id : Nat) (res : Res) (locked : Bool)
deriving DecidableEq

/-- The number of the call in a slot. -/
def Call.id : Call → Option Nat
  | idle => none
  | waiting id _ => some id
  | deleting id _ _ => some id
  | inside id _ _ => some id
  | counting id _ _ _ _ _ => some id
  | releasing id _ _ _ => some id
  | finished id _ _ => some id

variable {τ : Type} [DecidableEq τ]

/-- The store, the clock, the holder of the mutex, one call per slot, and the record of what an
observer has seen. -/
structure World (τ : Type) where
  items : Items
  now : Instant
  mu : Option τ
  calls : τ → Call
  record : Record Op Res

/-- The steps of the slots, of the clock and of the janitor. -/
inductive Event (τ : Type) where
  | invoke (t : τ) (op : Op)
  | lock (t : τ)
  | act (t : τ)
  | write (t : τ)
  | ret (t : τ)
  | tick (d : Nat)
  | collect

/-- Move one slot to a new program counter. -/
def World.put (w : World τ) (t : τ) (c : Call) : World τ := { w with calls := update w.calls t c }

/-- The last engine call of an operation, with its result. -/
def World.commit (w : World τ) (t : τ) (id : Nat) (op : Op) (items : Items) (res : Res)
    (locked : Bool) : World τ :=
  { w with
    items := items
    calls := update w.calls t (.finished id res locked)
    record := w.record.commit ⟨id, op, res⟩ }

/-- Where a call starts. -/
def Call.start (id : Nat) : Op → Call
  | .deleteMany keys => .deleting id keys keys
  | op => .waiting id op

/-- One step. -/
def step (d : DefaultTTL) (w : World τ) : Event τ → Option (World τ)
  | .invoke t op =>
    match w.calls t with
    | .idle =>
      some { w with
        calls := update w.calls t (.start w.record.next op)
        record := w.record.invoke op }
    | _ => none
  | .lock t =>
    match w.calls t with
    | .waiting id op =>
      match underMutex op, w.mu with
      | some body, none =>
        some { w with mu := some t, calls := update w.calls t (.inside id op body) }
      | _, _ => none
    | _ => none
  | .act t =>
    match w.calls t with
    | .waiting id op =>
      match underMutex op with
      | none =>
        let r := exec d w.now w.items op
        some (w.commit t id op r.1 r.2 false)
      | some _ => none
    | .deleting id keys [] => some (w.commit t id (.deleteMany keys) w.items .done false)
    | .deleting id keys [key] =>
      some (w.commit t id (.deleteMany keys) (delete w.items key) .done false)
    | .deleting id keys (key :: rest) =>
      some { w with
        items := delete w.items key
        calls := update w.calls t (.deleting id keys rest) }
    | .inside id op (.counter key delta ttl) =>
      match readInt64 w.items w.now key with
      | .error err => some (w.commit t id op w.items (.error err) true)
      | .ok current => some (w.put t (.counting id op key delta ttl current))
    | .inside id op (.acquire key owner ttl) =>
      let r := add d w.items w.now key owner ttl
      some (w.commit t id op r.1 (.flag r.2) true)
    | .inside id op (.release key owner) =>
      if w.items.get w.now key = some owner then some (w.put t (.releasing id op key owner))
      else some (w.commit t id op w.items (.flag false) true)
    | _ => none
  | .write t =>
    match w.calls t with
    | .counting id op key delta ttl current =>
      -- the number that was read, whatever the key holds now
      let next := current + delta
      some (w.commit t id op (w.items.set w.now key (Decimal.formatInt next) (d.resolve ttl))
        (.number next) true)
    | .releasing id op key _ =>
      some (w.commit t id op (delete w.items key) (.flag true) true)
    | _ => none
  | .ret t =>
    match w.calls t with
    | .finished id res locked =>
      some { w with
        mu := if locked then none else w.mu
        calls := update w.calls t .idle
        record := w.record.respond id res }
    | _ => none
  | .tick d => some { w with now := w.now + d }
  | .collect => some { w with items := w.items.deleteExpired w.now }

/-- A store between calls. -/
structure World.Initial (w : World τ) : Prop where
  idle : ∀ t, w.calls t = .idle
  record : w.record = .empty

/-! ## Sequential executions -/

/-- The store used by one caller at a time. -/
structure Sequential where
  items : Items
  now : Instant

/-- A whole call with its result, a step of the clock, a run of the janitor. -/
inductive SequentialEvent where
  | call (e : Entry Op Res)
  | tick (d : Nat)
  | collect

/-- One step: a call has the result that the store gives it. -/
def sequentialStep (d : DefaultTTL) (s : Sequential) : SequentialEvent → Option Sequential
  | .call e =>
    let r := exec d s.now s.items e.op
    if r.2 = e.res then some { s with items := r.1 } else none
  | .tick d => some { s with now := s.now + d }
  | .collect => some { s with items := s.items.deleteExpired s.now }

/-- The call of an event. -/
def SequentialEvent.entry : SequentialEvent → Option (Entry Op Res)
  | call e => some e
  | _ => none

/-- The store of the slots as seen by one caller at a time. -/
def World.sequential (w : World τ) : Sequential := ⟨w.items, w.now⟩

/-- The calls of `log`, one at a time, take the store from one state to another. -/
def Replays (d : DefaultTTL) (s : Sequential) (log : List (Entry Op Res)) (s' : Sequential) :
    Prop :=
  ∃ events, events.filterMap SequentialEvent.entry = log ∧ run (sequentialStep d) s events = some s'

section Replay

variable {d : DefaultTTL} {s s' s'' : Sequential} {log : List (Entry Op Res)}

/-- Nothing happens. -/
theorem replays_nil (d : DefaultTTL) (s : Sequential) : Replays d s [] s := ⟨[], rfl, rfl⟩

/-- One more event. -/
theorem Replays.snoc (h : Replays d s log s') {e : SequentialEvent}
    (he : sequentialStep d s' e = some s'') : Replays d s (log ++ e.entry.toList) s'' := by
  obtain ⟨events, rfl, hrun⟩ := h
  refine ⟨events ++ [e], ?_, ?_⟩
  · rw [List.filterMap_append]
    cases hentry : e.entry <;> simp [hentry]
  · rw [run_append, hrun, Option.bind_some, run_cons, he]
    rfl

/-- One more event that is no call. -/
theorem Replays.quiet (h : Replays d s log s') {e : SequentialEvent} (hentry : e.entry = none)
    (he : sequentialStep d s' e = some s'') : Replays d s log s'' := by
  have hmore := h.snoc he
  rw [hentry, Option.toList_none, List.append_nil] at hmore
  exact hmore

theorem Replays.call (h : Replays d s log s') {id : Nat} {op : Op} {items : Items} {res : Res}
    (hexec : exec d s'.now s'.items op = (items, res)) :
    Replays d s (log ++ [⟨id, op, res⟩]) { s' with items := items } := by
  have hstep : sequentialStep d s' (.call ⟨id, op, res⟩) = some { s' with items := items } := by
    simp [sequentialStep, hexec]
  exact h.snoc hstep

end Replay

/-! ## Sections that find what they had read -/

/-- The side condition of a step: a section that is about to write still finds the number, or
the owner, that it had read.  `DeleteMany` is called with one key at most. -/
def Undisturbed (w : World τ) : Event τ → Prop
  | .write t =>
    match w.calls t with
    | .counting _ _ key _ _ current => readInt64 w.items w.now key = .ok current
    | .releasing _ _ key owner => w.items.get w.now key = some owner
    | _ => True
  | .invoke _ (.deleteMany keys) => keys.length ≤ 1
  | _ => True

instance (w : World τ) : DecidablePred (Undisturbed w) := by
  intro e
  cases e with
  | write t =>
    dsimp only [Undisturbed]
    split <;> infer_instance
  | invoke t op =>
    cases op with
    | deleteMany keys => exact Nat.decLe _ _
    | _ => exact .isTrue trivial
  | lock | act | ret | tick | collect => exact .isTrue trivial

/-- What holds of a call at its program counter. -/
def CallOk (record : Record Op Res) : Call → Prop
  | .idle => True
  | .waiting id op => record.Open id op
  | .deleting id keys rest =>
    record.Open id (.deleteMany keys) ∧ keys = rest ∧ keys.length ≤ 1
  | .inside id op body => record.Open id op ∧ underMutex op = some body
  | .counting id op key delta ttl _ =>
    record.Open id op ∧ underMutex op = some (.counter key delta ttl)
  | .releasing id op key owner =>
    record.Open id op ∧ underMutex op = some (.release key owner)
  | .finished id res _ => record.Committed id res

/-- The invariant, for runs that started with the store `s`. -/
structure Inv (d : DefaultTTL) (s : Sequential) (w : World τ) : Prop where
  record : w.record.Inv
  calls : ∀ t, CallOk w.record (w.calls t)
  distinct : ∀ t u id, (w.calls t).id = some id → (w.calls u).id = some id → t = u
  replays : Replays d s w.record.log w.sequential

omit [DecidableEq τ] in
/-- A store between calls satisfies the invariant. -/
theorem World.Initial.inv {w : World τ} (h : w.Initial) (d : DefaultTTL) :
    Inv d w.sequential w where
  record := by
    rw [h.record]
    exact Record.inv_empty
  calls := by
    intro t
    rw [h.idle t]
    trivial
  distinct := by
    intro t u id ht
    rw [h.idle t] at ht
    cases ht
  replays := by
    rw [h.record]
    exact replays_nil d _

/-- What is true of a call stays true when the record grows by steps of others. -/
theorem CallOk.mono {record record' : Record Op Res} {c : Call} (h : CallOk record c)
    (hopen : ∀ id op, c.id = some id → record.Open id op → record'.Open id op)
    (hcommitted : ∀ id res, record.Committed id res → record'.Committed id res) :
    CallOk record' c := by
  cases c with
  | idle => trivial
  | waiting id op => exact hopen id op rfl h
  | deleting id keys rest => exact ⟨hopen id _ rfl h.1, h.2⟩
  | inside id op body | counting id op key delta ttl current | releasing id op key owner =>
    exact ⟨hopen id op rfl h.1, h.2⟩
  | finished id res locked => exact hcommitted id res h

/-- The number of a call is not fresh. -/
theorem CallOk.id_lt {record : Record Op Res} (hrecord : record.Inv) {c : Call}
    (h : CallOk record c) {id : Nat} (hid : c.id = some id) : id < record.next := by
  cases c with
  | idle => cases hid
  | waiting i op =>
    cases hid
    exact hrecord.open_lt h
  | deleting i keys rest | inside i op body | counting i op key delta ttl current
  | releasing i op key owner =>
    cases hid
    exact hrecord.open_lt h.1
  | finished i res locked =>
    cases hid
    exact hrecord.committed_lt h

section Steps

variable {d : DefaultTTL} {s : Sequential} {w : World τ} {t : τ}

/-- Numbers stay distinct when one slot takes on a number that no other slot has. -/
theorem Inv.distinct_update (hw : Inv d s w) {c : Call}
    (hc : ∀ id, c.id = some id → ∀ u, u ≠ t → (w.calls u).id ≠ some id) :
    ∀ u v id, (update w.calls t c u).id = some id →
      (update w.calls t c v).id = some id → u = v := by
  intro u v id hu hv
  by_cases hut : u = t
  · by_cases hvt : v = t
    · rw [hut, hvt]
    · rw [hut, update_self] at hu
      rw [update_of_ne hvt] at hv
      exact absurd hv (hc id hu v hvt)
  · rw [update_of_ne hut] at hu
    by_cases hvt : v = t
    · rw [hvt, update_self] at hv
      exact absurd hu (hc id hv u hut)
    · rw [update_of_ne hvt] at hv
      exact hw.distinct u v id hu hv

omit [DecidableEq τ] in
/-- The number of a slot is its own. -/
theorem Inv.other_id (hw : Inv d s w) {id : Nat} (hid : (w.calls t).id = some id) {u : τ}
    (hu : u ≠ t) : (w.calls u).id ≠ some id := by
  intro h
  exact hu (hw.distinct u t id h hid)

/-- A step within a call keeps the invariant. -/
theorem Inv.move (hw : Inv d s w) (c : Call) (hid : c.id = (w.calls t).id) (hc : CallOk w.record c)
    (mu : Option τ) : Inv d s { w with mu := mu, calls := update w.calls t c } where
  record := hw.record
  calls := (forall_update_iff w.calls fun _ => CallOk w.record).mpr
    ⟨hc, fun u _ => hw.calls u⟩
  distinct := hw.distinct_update fun _ h _ hu => hw.other_id (hid ▸ h) hu
  replays := hw.replays

/-- Making a call keeps the invariant. -/
theorem Inv.invoke (hw : Inv d s w) (op : Op)
    (hdelete : ∀ keys, op = .deleteMany keys → keys.length ≤ 1) :
    Inv d s { w with
      calls := update w.calls t (.start w.record.next op)
      record := w.record.invoke op } where
  record := hw.record.invoke op
  calls := by
    refine (forall_update_iff w.calls fun _ => CallOk _).mpr ⟨?_, fun u _ => ?_⟩
    · have hopen := hw.record.open_invoke op
      cases op with
      | deleteMany keys => exact ⟨hopen, rfl, hdelete keys rfl⟩
      | _ => exact hopen
    · exact (hw.calls u).mono (fun id op' _ h => h.invoke op) (fun id res h => h)
  distinct := by
    refine hw.distinct_update fun id h u _ hid => ?_
    have hfresh : id = w.record.next := by
      cases op <;> exact (Option.some.inj h).symm
    have hlt := (hw.calls u).id_lt hw.record hid
    omega
  replays := hw.replays

/-- A call that takes effect as the store would have it keeps the invariant. -/
theorem Inv.commit (hw : Inv d s w) {id : Nat} {op : Op} {items : Items} {res : Res}
    (hid : (w.calls t).id = some id) (hopen : w.record.Open id op)
    (hexec : exec d w.now w.items op = (items, res)) (locked : Bool) :
    Inv d s (w.commit t id op items res locked) where
  record := hw.record.commit hopen res
  calls := by
    refine (forall_update_iff w.calls fun _ => CallOk _).mpr
      ⟨w.record.committed_commit ⟨id, op, res⟩, fun u hu => ?_⟩
    refine (hw.calls u).mono (fun id' op' hid' h => h.commit ?_) (fun id' res' h => h.commit _)
    intro heq
    exact hw.other_id hid hu (hid'.trans (congrArg some heq.symm))
  distinct := hw.distinct_update fun id' h u hu => by
    cases h
    exact hw.other_id hid hu
  replays := hw.replays.call hexec

/-- Returning keeps the invariant. -/
theorem Inv.respond (hw : Inv d s w) {id : Nat} {res : Res} (hc : w.record.Committed id res)
    (mu : Option τ) :
    Inv d s { w with
      mu := mu
      calls := update w.calls t .idle
      record := w.record.respond id res } where
  record := hw.record.respond hc
  calls := by
    refine (forall_update_iff w.calls fun _ => CallOk _).mpr ⟨trivial, fun u _ => ?_⟩
    exact (hw.calls u).mono (fun id' op h hopen => hopen.respond id res) (fun id' res' h => h)
  distinct := hw.distinct_update fun id' h => by cases h
  replays := hw.replays

end Steps

section Bodies

variable {op : Op} (d : DefaultTTL) (m : Items) (now : Instant)

/-- A counter call is `Increment` of its body. -/
theorem exec_counter {key : Key} {delta : Int64} {ttl : Duration}
    (h : underMutex op = some (.counter key delta ttl)) :
    exec d now m op = ((increment d m now key delta ttl).1,
      counterRes (increment d m now key delta ttl).2) := by
  cases op <;> cases h <;> rfl

theorem exec_acquire {key : Key} {owner : Bytes} {ttl : Duration}
    (h : underMutex op = some (.acquire key owner ttl)) :
    exec d now m op = ((add d m now key owner ttl).1, .flag (add d m now key owner ttl).2) := by
  cases op <;> cases h
  rfl

/-- `LockRelease`, by what it finds. -/
theorem exec_release {key : Key} {owner : Bytes} (h : underMutex op = some (.release key owner)) :
    exec d now m op =
      if m.get now key = some owner then (delete m key, .flag true) else (m, .flag false) := by
  cases op <;> cases h
  simp only [exec]
  rcases lockRelease_spec m now key owner with ⟨hget, heq⟩ | ⟨hget, heq⟩
  · rw [heq, if_pos hget]
    rfl
  · rw [heq, if_neg hget]

end Bodies

section Calls

variable {d : DefaultTTL} {s : Sequential} {w w' : World τ} {t : τ}

/-- A first engine call keeps the invariant: the call takes effect there, or it has read under
the mutex and will write. -/
theorem Inv.act (hw : Inv d s w) (h : step d w (.act t) = some w') : Inv d s w' := by
  have hok := hw.calls t
  simp only [step] at h
  split at h <;> rename_i hcall <;> try rw [hcall] at hok
  · -- one engine call without the mutex
    split at h
    · cases h
      exact hw.commit (by rw [hcall]; rfl) hok rfl false
    · cases h
  · obtain ⟨hopen, rfl, -⟩ := hok
    cases h
    exact hw.commit (by rw [hcall]; rfl) hopen rfl false
  · obtain ⟨hopen, rfl, -⟩ := hok
    cases h
    exact hw.commit (by rw [hcall]; rfl) hopen rfl false
  · -- a longer loop is excluded by the side condition of its start
    rename_i id keys key rest hlong
    obtain ⟨-, rfl, hlength⟩ := hok
    cases rest with
    | nil => exact absurd rfl hlong
    | cons key' rest =>
      rw [List.length_cons, List.length_cons] at hlength
      omega
  · rename_i id op key delta ttl
    obtain ⟨hopen, hbody⟩ := hok
    split at h
    · rename_i err hread
      cases h
      refine hw.commit (by rw [hcall]; rfl) hopen ?_ true
      rw [exec_counter d w.items w.now hbody, increment, hread]
      rfl
    · rename_i current hread
      cases h
      exact hw.move (.counting id op key delta ttl current) (by rw [hcall]; rfl)
        ⟨hopen, hbody⟩ w.mu
  · rename_i id op key owner ttl
    obtain ⟨hopen, hbody⟩ := hok
    cases h
    exact hw.commit (by rw [hcall]; rfl) hopen (exec_acquire d w.items w.now hbody) true
  · rename_i id op key owner
    obtain ⟨hopen, hbody⟩ := hok
    split at h
    · cases h
      exact hw.move (.releasing id op key owner) (by rw [hcall]; rfl) ⟨hopen, hbody⟩ w.mu
    · rename_i hget
      cases h
      refine hw.commit (by rw [hcall]; rfl) hopen ?_ true
      rw [exec_release d w.items w.now hbody, if_neg hget]
  · cases h

/-- The write of a section that still finds what it had read keeps the invariant: the whole
section takes effect there. -/
theorem Inv.write (hw : Inv d s w) (hcond : Undisturbed w (.write t))
    (h : step d w (.write t) = some w') : Inv d s w' := by
  have hok := hw.calls t
  simp only [step] at h
  simp only [Undisturbed] at hcond
  split at h
  · rename_i id op key delta ttl current hcall
    rw [hcall] at hok hcond
    obtain ⟨hopen, hbody⟩ := hok
    cases h
    refine hw.commit (by rw [hcall]; rfl) hopen ?_ true
    rw [exec_counter d w.items w.now hbody, increment, hcond]
    rfl
  · rename_i id op key owner hcall
    rw [hcall] at hok hcond
    obtain ⟨hopen, hbody⟩ := hok
    cases h
    refine hw.commit (by rw [hcall]; rfl) hopen ?_ true
    rw [exec_release d w.items w.now hbody, if_pos hcond]
  · cases h

end Calls

/-- Every step that meets the side condition keeps the invariant. -/
theorem inv_step {d : DefaultTTL} {s : Sequential} {w w' : World τ} {e : Event τ}
    (hw : Inv d s w) (hcond : Undisturbed w e) (h : step d w e = some w') : Inv d s w' := by
  cases e with
  | invoke t op =>
    simp only [step] at h
    split at h
    · cases h
      refine hw.invoke op ?_
      rintro keys rfl
      exact hcond
    · cases h
  | lock t =>
    simp only [step] at h
    split at h
    · rename_i id op hcall
      have hok := hw.calls t
      rw [hcall] at hok
      split at h
      · rename_i body hbody _
        cases h
        exact hw.move (.inside id op body) (by rw [hcall]; rfl) ⟨hok, hbody⟩ _
      · cases h
    · cases h
  | act t => exact hw.act h
  | write t => exact hw.write hcond h
  | ret t =>
    have hok := hw.calls t
    simp only [step] at h
    split at h
    · rename_i id res locked hcall
      rw [hcall] at hok
      cases h
      exact hw.respond hok _
    · cases h
  | tick n =>
    cases h
    exact ⟨hw.record, hw.calls, hw.distinct, hw.replays.quiet (e := .tick n) rfl rfl⟩
  | collect =>
    cases h
    exact ⟨hw.record, hw.calls, hw.distinct, hw.replays.quiet (e := .collect) rfl rfl⟩

/--
Concurrent calls on one `memoryStore` are linearizable as long as every section that
writes still finds what it had read.  In every state that a run of such steps reaches, there
is a sequential order of calls that explains what an observer has seen (every returned call
has its result there, and calls that did not overlap are in order), and the calls in this
order, one at a time on the clock of the run, take the store from its content at the start to
its content now.
-/
theorem memory_linearizable {d : DefaultTTL} {w₀ w : World τ} {es : List (Event τ)}
    (hinit : w₀.Initial) (hcond : Along (step d) Undisturbed w₀ es)
    (hrun : run (step d) w₀ es = some w) :
    ∃ log, Linearizes w.record.history log ∧ Replays d w₀.sequential log w.sequential := by
  have hw : Inv d w₀.sequential w :=
    run_preserves_along (fun w e w' hw hcond h => inv_step hw hcond h) (hinit.inv d) hcond hrun
  exact ⟨w.record.log, hw.record.linearizes, hw.replays⟩

/-! ## An increment and a set -/

/-- A store with the default lifetime on which `Set` of `5` was called. -/
def sampleTTL : DefaultTTL := DefaultTTL.normalize 0

/-- No call is in flight. -/
def quietWorld : World Bool where
  items := set sampleTTL (fun _ => none) 0 (ascii "k") (ascii "5") 60
  now := 0
  mu := none
  calls := fun _ => .idle
  record := .empty

/-- `Increment` of `k` by one in the first slot, up to its read. -/
def incrementReads : List (Event Bool) :=
  [.invoke false (.increment (ascii "k") 1 60), .lock false, .act false]

/-- `Set` in the second slot, from its call to its return. -/
def setCompletes (key : Key) : List (Event Bool) :=
  [.invoke true (.set key (ascii "100") 60), .act true, .ret true]

/-- The increment writes and returns. -/
def incrementWrites : List (Event Bool) := [.write false, .ret false]

/-- The whole run. -/
def overlap (key : Key) : List (Event Bool) := incrementReads ++ setCompletes key ++ incrementWrites

/-- The store after the run. -/
def overlapped (key : Key) : World Bool :=
  (run (step sampleTTL) quietWorld (overlap key)).getD quietWorld

/-- When the `Set` is on another key, some sequential order explains the run. -/
theorem memory_linearizable_other_key :
    run (step sampleTTL) quietWorld (overlap (ascii "j")) = some (overlapped (ascii "j")) ∧
    ∃ log, Linearizes (overlapped (ascii "j")).record.history log ∧
      Replays sampleTTL quietWorld.sequential log (overlapped (ascii "j")).sequential := by
  have hrun : run (step sampleTTL) quietWorld (overlap (ascii "j")) =
      some (overlapped (ascii "j")) := rfl
  have hcond : Along (step sampleTTL) Undisturbed quietWorld (overlap (ascii "j")) := by
    decide +kernel
  exact ⟨hrun, memory_linearizable ⟨fun _ => rfl, rfl⟩ hcond hrun⟩

section Refutation

variable {d : DefaultTTL} {s s' : Sequential}

/-- Without calls a record can only vanish. -/
theorem run_quiet {events : List SequentialEvent} (hquiet : ∀ e ∈ events, e.entry = none)
    (hrun : run (sequentialStep d) s events = some s') (key : Key) :
    s'.items key = s.items key ∨ s'.items key = none := by
  induction events generalizing s with
  | nil =>
    cases hrun
    exact Or.inl rfl
  | cons e events ih =>
    obtain ⟨u, hu, hrest⟩ := run_cons_eq_some hrun
    have hlater := ih (fun e' he' => hquiet e' (List.mem_cons_of_mem e he')) hrest
    have hhead : u.items key = s.items key ∨ u.items key = none := by
      cases e with
      | call e => cases hquiet _ List.mem_cons_self
      | tick n =>
        cases hu
        exact Or.inl rfl
      | collect =>
        cases hu
        dsimp only [ExpiringMap.deleteExpired]
        split
        · exact Or.inr rfl
        · rename_i item hitem
          rw [hitem]
          split
          · exact Or.inr rfl
          · exact Or.inl rfl
    rcases hlater with heq | hnone
    · rw [heq]
      exact hhead
    · exact Or.inr hnone

/-- The first call of a sequential execution. -/
theorem Replays.cons_inv {e : Entry Op Res} {log : List (Entry Op Res)}
    (h : Replays d s (e :: log) s') :
    ∃ s₁ : Sequential, (∀ key, s₁.items key = s.items key ∨ s₁.items key = none) ∧
      (exec d s₁.now s₁.items e.op).2 = e.res ∧
      Replays d { s₁ with items := (exec d s₁.now s₁.items e.op).1 } log s' := by
  obtain ⟨events, hentries, hrun⟩ := h
  obtain ⟨before, x, after, rfl, hbefore, hx, hafter⟩ := List.filterMap_eq_cons_iff.mp hentries
  obtain ⟨s₁, hfirst, hrest⟩ := run_append_eq_some hrun
  obtain ⟨s₂, hcall, hlast⟩ := run_cons_eq_some hrest
  cases x with
  | call e' =>
    cases hx
    simp only [sequentialStep] at hcall
    split at hcall
    · rename_i hres
      cases hcall
      exact ⟨s₁, run_quiet hbefore hfirst, hres, after, hafter, hlast⟩
    · cases hcall
  | tick n => cases hx
  | collect => cases hx

/-- A sequential execution without calls. -/
theorem Replays.nil_inv (h : Replays d s [] s') (key : Key) :
    s'.items key = s.items key ∨ s'.items key = none := by
  obtain ⟨events, hentries, hrun⟩ := h
  exact run_quiet (List.filterMap_eq_nil_iff.mp hentries) hrun key

/-- After `Set` and no further call, the key holds the value set or nothing. -/
theorem replays_set_last {id : Nat} {key : Key} {value : Bytes} {ttl : Duration} {res : Res}
    (h : Replays d s [⟨id, .set key value ttl, res⟩] s') {item : Item Bytes}
    (hitem : s'.items key = some item) : item.value = value := by
  obtain ⟨s₁, -, -, hlast⟩ := h.cons_inv
  rcases hlast.nil_inv key with hsame | hnone
  · rw [hitem] at hsame
    have hwritten := hsame.trans (update_self _ _ _)
    rw [Option.some.inj hwritten]
  · rw [hitem] at hnone
    cases hnone

/-- `Increment` right after `Set` of a number counts from that number, or from zero
when the record is gone. -/
theorem replays_set_increment {id id' : Nat} {key : Key} {n delta m : Int64} {ttl ttl' : Duration}
    {res : Res} {log : List (Entry Op Res)}
    (h : Replays d s (⟨id, .set key (Decimal.formatInt n) ttl, res⟩ ::
      ⟨id', .increment key delta ttl', .number m⟩ :: log) s') : m = n + delta ∨ m = 0 + delta := by
  obtain ⟨s₁, -, -, hrest⟩ := h.cons_inv
  obtain ⟨s₃, hbetween, hres, -⟩ := hrest.cons_inv
  have hsingle : (Op.increment key delta ttl').single = some key := rfl
  dsimp only at hres
  rw [exec_plan d s₃.now s₃.items hsingle] at hres
  dsimp only [Op.plan] at hres
  have hget : s₃.items.get s₃.now key = none ∨
      s₃.items.get s₃.now key = some (Decimal.formatInt n) := by
    rcases hbetween key with hsame | hnone
    · have hitem := hsame.trans (update_self _ _ _)
      rw [ExpiringMap.get, hitem]
      dsimp only
      split
      · exact Or.inl rfl
      · exact Or.inr rfl
    · rw [ExpiringMap.get, hnone]
      exact Or.inl rfl
  rcases hget with hget | hget
  · rw [hget] at hres
    exact Or.inr (Res.number.inj hres).symm
  · rw [hget, planIncrement, Decimal.parseInt_formatInt] at hres
    exact Or.inl (Res.number.inj hres).symm

end Refutation

/-- The observer's view of the run on one key: the increment is called first, the set is called
and returns, the increment returns six. -/
def overlapHistory : List (Action Op Res) :=
  [.call 0 (.increment (ascii "k") 1 60), .call 1 (.set (ascii "k") (ascii "100") 60),
    .ret 1 .done, .ret 0 (.number 6)]

/-- There are two candidates for an order. -/
theorem overlapHistory_orders {log : List (Entry Op Res)} (h : Linearizes overlapHistory log) :
    log = [⟨0, .increment (ascii "k") 1 60, .number 6⟩,
        ⟨1, .set (ascii "k") (ascii "100") 60, .done⟩] ∨
      log = [⟨1, .set (ascii "k") (ascii "100") 60, .done⟩,
        ⟨0, .increment (ascii "k") 1 60, .number 6⟩] := by
  obtain ⟨e₁, he₁, hid₁, hres₁⟩ := h.complete 1 .done (by decide)
  obtain ⟨e₀, he₀, hid₀, hres₀⟩ := h.complete 0 (.number 6) (by decide)
  have hcases : ∀ e ∈ log, e.id = 0 ∧ e.op = .increment (ascii "k") 1 60 ∨
      e.id = 1 ∧ e.op = .set (ascii "k") (ascii "100") 60 := by
    intro e he
    simpa [overlapHistory] using h.genuine e he
  have hentry₀ : e₀ = ⟨0, .increment (ascii "k") 1 60, .number 6⟩ := by
    rcases hcases e₀ he₀ with ⟨-, hop⟩ | ⟨hid, -⟩
    · rw [← hid₀, ← hop, ← hres₀]
    · omega
  have hentry₁ : e₁ = ⟨1, .set (ascii "k") (ascii "100") 60, .done⟩ := by
    rcases hcases e₁ he₁ with ⟨hid, -⟩ | ⟨-, hop⟩
    · omega
    · rw [← hid₁, ← hop, ← hres₁]
  rw [← hentry₀, ← hentry₁]
  have honce := h.once
  have hids : ∀ e ∈ log, e.id = 0 ∨ e.id = 1 := fun e he => (hcases e he).imp And.left And.left
  match log with
  | [] => cases he₀
  | [a] =>
    rw [List.mem_singleton.mp he₀] at hid₀
    rw [List.mem_singleton.mp he₁] at hid₁
    omega
  | [a, b] =>
    have hmem₀ : e₀ = a ∨ e₀ = b := by simpa using he₀
    have hmem₁ : e₁ = a ∨ e₁ = b := by simpa using he₁
    rcases hmem₀ with rfl | rfl <;> rcases hmem₁ with rfl | rfl
    · omega
    · exact Or.inl rfl
    · exact Or.inr rfl
    · omega
  | a :: b :: c :: rest =>
    have ha := hids a (by simp)
    have hb := hids b (by simp)
    have hc := hids c (by simp)
    simp only [List.map_cons, List.nodup_cons, List.mem_cons, not_or] at honce
    omega

/-- The increment that was in progress undoes the set that completed: the store holds six, and
no sequential order of the two calls gives this content and these results. -/
theorem increment_undoes_set :
    run (step sampleTTL) quietWorld (overlap (ascii "k")) = some (overlapped (ascii "k")) ∧
    (overlapped (ascii "k")).record.history = overlapHistory ∧
    ¬∃ log, Linearizes (overlapped (ascii "k")).record.history log ∧
      Replays sampleTTL quietWorld.sequential log (overlapped (ascii "k")).sequential := by
  have hhistory : (overlapped (ascii "k")).record.history = overlapHistory := rfl
  refine ⟨rfl, hhistory, ?_⟩
  rintro ⟨log, hlog, hreplays⟩
  rw [hhistory] at hlog
  rcases overlapHistory_orders hlog with rfl | rfl
  · obtain ⟨s₁, -, -, hset⟩ := hreplays.cons_inv
    have hsix : (overlapped (ascii "k")).sequential.items (ascii "k") = some ⟨ascii "6", 60⟩ := rfl
    cases replays_set_last hset hsix
  · have hnumber : ascii "100" = Decimal.formatInt 100 := rfl
    rw [hnumber] at hreplays
    rcases replays_set_increment hreplays with hm | hm <;> cases hm

end Concurrent
end Memory
end GoforjCache
