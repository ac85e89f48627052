import GoforjCache.Memcached.Commands
import GoforjCache.Memcached.Server

/-!
# Memcached - What a call reads and changes

A relation between two states of a server is respected by a command when related states give the
same reply and related states again.  If every command on some keys respects a relation, so does
every call of the store on these keys, over all addresses.

Main results:

- Theorem `exec_respects`: calls respect what the commands on their keys respect.
- Theorem `exec_frame`: a call leaves the items of the keys that it does not name, and the
  clock, as they are.
- Theorem `memcached_respects_sameItems`: the reply to a command on a key is a function of the
  item of that key, up to its version.
-/

namespace GoforjCache
namespace Memcached

open Foundation

/-! ## Respected relations -/

section Respects

variable {σ γ α β : Type}

/-- From related states the exchange has the same outcome and ends in related states. -/
def Respects (R : σ → σ → Prop) (f : Action σ γ α) : Prop :=
  ∀ s s' c, R s s' → ∃ t', f s' c = ((f s c).1, t', (f s c).2.2) ∧ R (f s c).2.1 t'

variable {R : σ → σ → Prop}

theorem Respects.done (r : Outcome α) : Respects R (.done r : Action σ γ α) :=
  fun _ s' _ h => ⟨s', rfl, h⟩

variable {f : Action σ γ α} {S S' : State σ γ} {dials : UInt32 → Addr → Bool} {cfg : Config}

theorem Respects.andThen (hf : Respects R f) {g : α → Action σ γ β} (hg : ∀ a, Respects R (g a)) :
    Respects R (f.andThen g) := by
  intro s s' c h
  rcases hf s s' c h with ⟨t', heq, hstate⟩
  unfold Action.andThen
  rw [heq]
  generalize f s c = r at hstate ⊢
  rcases r with ⟨a | _ | _, t, d⟩
  · exact hg a t t' d hstate
  · exact ⟨t', rfl, hstate⟩
  · exact ⟨t', rfl, hstate⟩

/-- The servers are related, address by address, and the store is the same. -/
structure State.Rel (R : Addr → σ → σ → Prop) (S S' : State σ γ) : Prop where
  servers : ∀ addr, R addr (S.servers addr) (S'.servers addr)
  pools : S'.pools = S.pools
  rr : S'.rr = S.rr

/-- From related states the call has the same reply and ends in related states. -/
def CallRespects (R : Addr → σ → σ → Prop) (f : Call σ γ α) : Prop :=
  ∀ S S', S.Rel R S' → ∃ T', f S' = ((f S).1, T') ∧ (f S).2.Rel R T'

variable {R : Addr → σ → σ → Prop}

theorem CallRespects.done (r : Except MemcachedError α) :
    CallRespects R (Call.done r : Call σ γ α) :=
  fun _ S' h => ⟨S', rfl, h⟩

theorem CallRespects.andThen {f : Call σ γ α} (hf : CallRespects R f) {g : α → Call σ γ β}
    (hg : ∀ a, CallRespects R (g a)) : CallRespects R (f.andThen g) := by
  intro S S' h
  rcases hf S S' h with ⟨T', heq, hstate⟩
  unfold Call.andThen
  rw [heq]
  generalize f S = r at hstate ⊢
  rcases r with ⟨_ | _ | a, T⟩
  · exact ⟨T', rfl, hstate⟩
  · exact ⟨T', rfl, hstate⟩
  · exact hg a T T' hstate

theorem CallRespects.map {f : Call σ γ α} (hf : CallRespects R f) (g : α → β) :
    CallRespects R (f.map g) :=
  hf.andThen fun a => CallRespects.done (.ok (g a))

theorem CallRespects.nested {f : Call σ γ α} (hf : CallRespects R f) :
    Respects (State.Rel R) f.nested := by
  intro S S' c h
  rcases hf S S' h with ⟨T', heq, hstate⟩
  unfold Call.nested
  rw [heq]
  generalize f S = r at hstate ⊢
  rcases r with ⟨_ | _ | a, T⟩ <;> exact ⟨T', rfl, hstate⟩

theorem Respects.onServer {addr : Addr} (hf : Respects (R addr) f) :
    Respects (State.Rel R) (onServer addr f) := by
  intro S S' c h
  rcases hf (S.servers addr) (S'.servers addr) c (h.servers addr) with ⟨t', heq, hstate⟩
  refine ⟨{ S' with servers := Function.update S'.servers addr t' }, ?_, ?_, h.pools, h.rr⟩
  · simp only [Memcached.onServer, heq]
  · intro addr'
    by_cases haddr : addr' = addr
    · subst haddr
      simpa [Memcached.onServer] using hstate
    · simpa [Memcached.onServer, haddr] using h.servers addr'

theorem State.Rel.release (h : S.Rel R S') (addr : Addr) (c : γ) (bad : Bool) :
    (S.release addr c bad).Rel R (S'.release addr c bad) := by
  unfold State.release
  rw [h.pools]
  split
  · exact h
  · split
    · exact ⟨h.servers, rfl, h.rr⟩
    · exact h

variable {L : Link σ γ}

/-- The loop of `acquire` does not look at the servers. -/
theorem acquireFrom_rel {dials : Addr → Bool} {addrs : List Addr} (h : S.Rel R S') :
    ∃ T', acquireFrom L dials addrs S' = ((acquireFrom L dials addrs S).1, T') ∧
      (acquireFrom L dials addrs S).2.Rel R T' := by
  induction addrs with
  | nil => exact ⟨S', rfl, h⟩
  | cons addr addrs ih =>
    unfold acquireFrom
    rw [h.pools]
    cases S.pools addr with
    | cons c cs => exact ⟨_, rfl, ⟨h.servers, rfl, h.rr⟩⟩
    | nil =>
      dsimp only
      split
      · exact ⟨S', rfl, h⟩
      · exact ih

theorem acquire_rel (h : S.Rel R S') :
    ∃ T', acquire L cfg dials S' = ((acquire L cfg dials S).1, T') ∧
      (acquire L cfg dials S).2.Rel R T' := by
  unfold acquire
  rw [h.rr]
  split
  · exact ⟨S', rfl, h⟩
  · exact acquireFrom_rel ⟨h.servers, h.pools, rfl⟩

theorem CallRespects.withConn {body : Addr → Action (State σ γ) γ α}
    (hbody : ∀ addr, Respects (State.Rel R) (body addr)) :
    CallRespects R (withConn L cfg dials body) := by
  intro S S' h
  rcases acquire_rel h with ⟨T', hacquire, hT⟩
  unfold Memcached.withConn
  rw [hacquire]
  generalize acquire L cfg dials S = r at hT ⊢
  rcases r with ⟨e | ⟨addr, c⟩, T⟩
  · exact ⟨T', rfl, hT⟩
  · rcases hbody addr T T' c hT with ⟨U', heq, hU⟩
    dsimp only
    rw [heq]
    generalize body addr T c = r at hU ⊢
    rcases r with ⟨a | _ | _, U, d⟩
    · exact ⟨_, rfl, hU.release addr d false⟩
    · exact ⟨_, rfl, hU.release addr d _⟩
    · exact ⟨_, rfl, hU⟩

theorem CallRespects.exchange (hf : ∀ addr, Respects (R addr) f) :
    CallRespects R (exchange L cfg dials f) :=
  CallRespects.withConn fun addr => (hf addr).onServer

end Respects

/-! ## Calls -/

/-- The command names one of the keys and no version. -/
def Command.OnKeys (K : Key → Prop) (c : Command) : Prop :=
  ∃ verb full args, c.words = verb :: full :: args ∧ args.length ≤ 3 ∧ K full

/-- Lookups of the keys and commands on them respect the relation. -/
structure Backend.Respects {σ : Type} (B : Backend σ) (K : Key → Prop) (R : σ → σ → Prop) :
    Prop where
  lookup : ∀ {s s' full}, K full → R s s' →
    (B.lookup s' full).map Entry.data = (B.lookup s full).map Entry.data
  exec : ∀ {s s' c}, c.OnKeys K → R s s' →
    (B.exec s' c).2 = (B.exec s c).2 ∧ R (B.exec s c).1 (B.exec s' c).1

/-- The call is one of those that read and write single keys: not `Flush`, and not
`LockRelease`, which also reads a version. -/
def Plain : Op → Prop
  | .flush => False
  | .lockRelease _ _ => False
  | _ => True

section Calls

variable {σ : Type} {B : Backend σ} {K : Key → Prop} {R : σ → σ → Prop}

theorem onOpen_respects {α : Type} {f : σ → α × σ}
    (h : ∀ s s', R s s' → (f s').1 = (f s).1 ∧ R (f s).2 (f s').2) : Respects R (onOpen f) := by
  intro s s' alive hR
  cases alive with
  | false => exact ⟨s', rfl, hR⟩
  | true =>
    rcases h s s' hR with ⟨hout, hstate⟩
    exact ⟨(f s').2, by simp only [onOpen, if_true, hout], hstate⟩

variable {full key : Key}

theorem get_respects (hB : B.Respects K R) (hfull : K full) : Respects R ((commands B).get full) :=
  onOpen_respects fun _ _ hR => ⟨hB.lookup hfull hR, hR⟩

theorem answer_respects (hB : B.Respects K R) {c : Command} (hc : c.OnKeys K) :
    Respects R (onOpen (answer B c)) := by
  refine onOpen_respects fun s s' hR => ?_
  rcases hB.exec hc hR with ⟨hline, hstate⟩
  exact ⟨by rw [answer, answer, hline], hstate⟩

theorem ask_respects (hB : B.Respects K R) (verb : Bytes) (hfull : K full) {args : List Bytes}
    (hargs : args.length ≤ 3) : Respects R ((commands B).ask (verb :: full :: args)) :=
  answer_respects hB ⟨verb, full, args, rfl, hargs, hfull⟩

theorem storage_respects (hB : B.Respects K R) (verb : Bytes) (hfull : K full) (exptime : Nat)
    (value : Bytes) : Respects R ((commands B).storage verb full exptime value) :=
  answer_respects hB ⟨verb, full, _, rfl, le_rfl, hfull⟩

theorem counted_respects (hB : B.Respects K R) (hfull : K full) (ttl : Duration) (line : Bytes) :
    Respects R ((commands B).counted full ttl line) := by
  refine (Respects.done _).andThen fun n => ?_
  split
  · exact (ask_respects hB _ hfull (by simp)).andThen fun _ =>
      (Respects.done _).andThen fun _ => Respects.done _
  · exact Respects.done _

variable {cfg : Config} {dials : UInt32 → Addr → Bool} {R : Addr → σ → σ → Prop}

theorem set_respects (hB : ∀ addr, B.Respects K (R addr)) (hkey : K (cfg.cacheKey key))
    (value : Bytes) (ttl : Duration) : CallRespects R (set (commands B) cfg dials key value ttl) :=
  CallRespects.exchange fun addr =>
    (storage_respects (hB addr) _ hkey _ _).andThen fun _ => Respects.done _

theorem add_respects (hB : ∀ addr, B.Respects K (R addr)) (hkey : K (cfg.cacheKey key))
    (value : Bytes) (ttl : Duration) : CallRespects R (add (commands B) cfg dials key value ttl) :=
  CallRespects.exchange fun addr =>
    (storage_respects (hB addr) _ hkey _ _).andThen fun _ => Respects.done _

theorem delete_respects (hB : ∀ addr, B.Respects K (R addr)) (hkey : K (cfg.cacheKey key)) :
    CallRespects R (delete (commands B) cfg dials key) :=
  CallRespects.exchange fun addr =>
    (ask_respects (hB addr) _ hkey (by simp)).andThen fun _ => Respects.done _

theorem incr_respects (hB : ∀ addr, B.Respects K (R addr)) (verb : Bytes)
    (hkey : K (cfg.cacheKey key)) (delta : Int64) (fuel : Nat) (ttl : Duration) :
    CallRespects R (incr (commands B) cfg dials verb key delta fuel ttl) := by
  induction fuel generalizing ttl with
  | zero => exact fun _ S' h => ⟨S', rfl, h⟩
  | succ fuel ih =>
    have hcount : ∀ addr, Respects (R addr)
        ((commands B).count verb (cfg.cacheKey key) delta) := fun addr =>
      (ask_respects (hB addr) _ hkey (by simp)).andThen fun _ => Respects.done _
    refine CallRespects.withConn fun addr => ((hcount addr).onServer).andThen fun line => ?_
    split
    · exact (set_respects hB hkey _ _).nested.andThen fun _ => (ih _).nested
    · exact (counted_respects (hB addr) hkey _ line).onServer

theorem deleteMany_respects (hB : ∀ addr, B.Respects K (R addr)) {keys : List Key}
    (hkeys : ∀ key ∈ keys, K (cfg.cacheKey key)) :
    CallRespects R (deleteMany (commands B) cfg dials keys) := by
  induction keys with
  | nil => exact CallRespects.done _
  | cons key keys ih =>
    have hhead := hkeys key List.mem_cons_self
    have htail := ih fun k hk => hkeys k (List.mem_cons_of_mem key hk)
    exact (delete_respects hB hhead).andThen fun _ => htail

/-- Calls respect what the commands on their keys respect. -/
theorem exec_respects (hB : ∀ addr, B.Respects K (R addr)) {op : Op} (hplain : Plain op)
    (hkeys : ∀ key ∈ op.keys.getD [], K (cfg.cacheKey key)) (fuel : Nat) :
    CallRespects R (exec (commands B) cfg dials fuel op) := by
  cases op with
  | get key =>
    exact (CallRespects.exchange fun addr =>
      get_respects (hB addr) (hkeys key List.mem_cons_self)).map _
  | set key value ttl => exact (set_respects hB (hkeys key List.mem_cons_self) value ttl).map _
  | add key value ttl => exact (add_respects hB (hkeys key List.mem_cons_self) value ttl).map _
  | increment key delta ttl =>
    refine CallRespects.map ?_ _
    unfold increment
    split
    · exact incr_respects hB _ (hkeys key List.mem_cons_self) _ fuel ttl
    · exact incr_respects hB _ (hkeys key List.mem_cons_self) _ fuel ttl
  | decrement key delta ttl =>
    refine CallRespects.map ?_ _
    unfold decrementCall increment
    split
    · split
      · exact incr_respects hB _ (hkeys key List.mem_cons_self) _ fuel ttl
      · exact incr_respects hB _ (hkeys key List.mem_cons_self) _ fuel ttl
    · exact incr_respects hB _ (hkeys key List.mem_cons_self) _ fuel ttl
  | delete key => exact (delete_respects hB (hkeys key List.mem_cons_self)).map _
  | deleteMany keys => exact (deleteMany_respects hB hkeys).map _
  | flush => exact absurd hplain id
  | lockAcquire key owner ttl =>
    exact (add_respects hB (hkeys key List.mem_cons_self) owner ttl).map _
  | lockRelease key owner => exact absurd hplain id

end Calls

/-! ## Items up to versions -/

/-- What a command without a version depends on. -/
def Item.view (item : Item) : Nat × Bytes × Option Nat :=
  (item.entry.flags, item.entry.data, item.expires)

/-- The same item up to its version, or none on both sides. -/
def SameView (o o' : Option Item) : Prop := o'.map Item.view = o.map Item.view

/-- The same reply and the same item up to its version. -/
def SameChange (r r' : Option Item × Line) : Prop := r'.2 = r.2 ∧ SameView r.1 r'.1

variable {o o' : Option Item}

theorem SameView.elim (h : SameView o o') :
    (o = none ∧ o' = none) ∨
      ∃ i i', o = some i ∧ o' = some i' ∧ i'.entry.flags = i.entry.flags ∧
        i'.entry.data = i.entry.data ∧ i'.expires = i.expires := by
  cases o with
  | none => exact Or.inl ⟨rfl, Option.map_eq_none_iff.mp h⟩
  | some i =>
    rcases Option.map_eq_some_iff.mp h with ⟨i', hi', hview⟩
    simp only [Item.view, Prod.mk.injEq] at hview
    exact Or.inr ⟨i, i', rfl, hi', hview⟩

theorem sameView_newItem (flags : Nat) (data : Bytes) (cas cas' : Nat) (expires : Option Nat) :
    SameView (newItem flags data cas expires) (newItem flags data cas' expires) := by
  unfold SameView newItem
  split <;> rfl

theorem SameView.written (h : SameView o o') : SameChange (written o) (written o') := by
  rcases h.elim with ⟨rfl, rfl⟩ | ⟨i, i', rfl, rfl, _⟩
  · exact ⟨rfl, rfl⟩
  · exact ⟨rfl, h⟩

theorem sameChange_storage (verb : Bytes) (flags : Nat) (expires : Option Nat) (data : Bytes)
    (cas cas' : Nat) (h : SameView o o') :
    SameChange (storageChange verb flags expires data cas o)
      (storageChange verb flags expires data cas' o') := by
  have hnew := (sameView_newItem flags data cas cas' expires).written
  unfold storageChange
  rcases h.elim with ⟨rfl, rfl⟩ | ⟨i, i', rfl, rfl, hflags, hdata, hexpires⟩
  · split
    · exact hnew
    · dsimp only
      split
      · exact hnew
      · exact ⟨rfl, rfl⟩
  · split
    · exact hnew
    · dsimp only
      rw [hflags, hdata, hexpires]
      split
      · exact hnew
      · split
        · exact (sameView_newItem _ _ cas cas' _).written
        · split
          · exact (sameView_newItem _ _ cas cas' _).written
          · exact ⟨rfl, h⟩

theorem sameChange_counter (verb arg : Bytes) (cas cas' : Nat) (h : SameView o o') :
    SameChange (counterChange verb arg cas o) (counterChange verb arg cas' o') := by
  unfold counterChange
  cases parseUnsigned arg with
  | none => exact ⟨rfl, h⟩
  | some delta =>
    rcases h.elim with ⟨rfl, rfl⟩ | ⟨i, i', rfl, rfl, hflags, hdata, hexpires⟩
    · exact ⟨rfl, rfl⟩
    · dsimp only
      rw [hflags, hdata, hexpires]
      cases counterValue i.entry.data with
      | none => exact ⟨rfl, h⟩
      | some value =>
        dsimp only
        have hnew := sameView_newItem i.entry.flags
          (padded (counterStep verb value delta) i.entry.data.length) cas cas' i.expires
        rcases hnew.elim with ⟨hnone, hnone'⟩ | ⟨j, j', hj, hj', _⟩
        · rw [hnone, hnone']
          exact ⟨rfl, h⟩
        · rw [hj, hj'] at hnew ⊢
          exact ⟨rfl, hnew⟩

theorem sameChange_touch (arg : Bytes) (now : Nat) (h : SameView o o') :
    SameChange (touchChange arg now o) (touchChange arg now o') := by
  unfold touchChange
  cases Decimal.parseInt arg with
  | none => exact ⟨rfl, h⟩
  | some exptime =>
    rcases h.elim with ⟨rfl, rfl⟩ | ⟨i, i', rfl, rfl, hflags, hdata, _⟩
    · exact ⟨rfl, rfl⟩
    · refine ⟨rfl, ?_⟩
      simp only [SameView, Option.map_some, Item.view, hflags, hdata]

theorem sameChange_delete (h : SameView o o') : SameChange (deleteChange o) (deleteChange o') := by
  rcases h.elim with ⟨rfl, rfl⟩ | ⟨i, i', rfl, rfl, _⟩
  · exact ⟨rfl, rfl⟩
  · exact ⟨rfl, rfl⟩

/-- A change that does not depend on versions. -/
def Versionless (f : Nat → Option Item → Option Item × Line) : Prop :=
  ∀ cas cas' o o', SameView o o' → SameChange (f cas o) (f cas' o')

/-! ## Commands on one key -/

/-- A command whose second word is a key is refused, or it changes the item of the key at the time
of the clock; without a version among its words it does not depend on versions. -/
theorem Server.exec_cases (verb full : Bytes) (args : List Bytes) (data : Option Bytes) :
    (∀ s : Server, s.exec ⟨verb :: full :: args, data⟩ = (s, .error)) ∨
      ∃ f : Nat → Nat → Option Item → Option Item × Line,
        (∀ s : Server, s.exec ⟨verb :: full :: args, data⟩ = s.keyed full (f s.clock)) ∧
          (args.length ≤ 3 → ∀ now, Versionless (f now)) := by
  rcases args with _ | ⟨a, _ | ⟨b, _ | ⟨c, _ | ⟨d, _ | ⟨e, args⟩⟩⟩⟩⟩ <;> rcases data with _ | data
  -- the lengths that no command has
  all_goals try exact Or.inl fun s => rfl
  · by_cases hverb : verb = ascii "delete"
    · exact Or.inr ⟨fun _ _ => deleteChange, fun s => if_pos hverb,
        fun _ _ _ _ _ _ => sameChange_delete⟩
    · exact Or.inl fun s => if_neg hverb
  · by_cases hcounter : verb = ascii "incr" ∨ verb = ascii "decr"
    · exact Or.inr ⟨fun _ => counterChange verb a, fun s => if_pos hcounter,
        fun _ _ cas cas' _ _ => sameChange_counter verb a cas cas'⟩
    · by_cases htouch : verb = ascii "touch"
      · exact Or.inr ⟨fun now _ => touchChange a now,
          fun s => (if_neg hcounter).trans (if_pos htouch),
          fun _ now _ _ _ _ => sameChange_touch a now⟩
      · exact Or.inl fun s => (if_neg hcounter).trans (if_neg htouch)
  · exact Or.inr ⟨fun now => storageChange verb ((Decimal.parseDigits a).getD 0)
      (deadline now (((Decimal.parseInt b).map Int64.toInt).getD 0)) data, fun s => rfl,
      fun _ now cas cas' _ _ => sameChange_storage verb _ _ data cas cas'⟩
  · refine Or.inr ⟨fun now => casChange ((Decimal.parseDigits a).getD 0)
      (deadline now (((Decimal.parseInt b).map Int64.toInt).getD 0)) data d, fun s => rfl, ?_⟩
    intro hlength
    simp only [List.length_cons, List.length_nil] at hlength
    omega

/-- A command on a key leaves the other keys and the clock alone. -/
theorem Server.exec_frame (s : Server) (verb full : Bytes) (args : List Bytes)
    (data : Option Bytes) :
    (s.exec ⟨verb :: full :: args, data⟩).1.clock = s.clock ∧
      ∀ key, key ≠ full → (s.exec ⟨verb :: full :: args, data⟩).1.slot key = s.slot key := by
  rcases Server.exec_cases verb full args data with herror | ⟨f, hexec, _⟩
  · rw [herror s]
    exact ⟨rfl, fun _ _ => rfl⟩
  · rw [hexec s]
    exact ⟨rfl, fun key hne => s.slot_keyed_ne hne _⟩

/-! ## The items of other keys -/

/-- The server holds what another one holds for the keys outside a set. -/
def Server.AgreesOutside (K : Key → Prop) (s₀ s : Server) : Prop :=
  s.clock = s₀.clock ∧ ∀ key, ¬K key → s.slot key = s₀.slot key

theorem memcached_respects_outside (K : Key → Prop) (s₀ : Server) :
    memcached.Respects K fun s s' => s' = s ∧ s₀.AgreesOutside K s where
  lookup := by
    rintro _ s full _ ⟨rfl, _⟩
    rfl
  exec := by
    rintro _ s ⟨_, data⟩ ⟨verb, full, args, rfl, _, hfull⟩ ⟨rfl, hclock, hslots⟩
    rcases Server.exec_frame s verb full args data with ⟨hclock', hslots'⟩
    refine ⟨rfl, rfl, hclock'.trans hclock, ?_⟩
    intro key hkey
    have hne : key ≠ full := by
      rintro rfl
      exact hkey hfull
    exact (hslots' key hne).trans (hslots key hkey)

/-- A call leaves the items of the keys that it does not name, and the clocks, as they are. -/
theorem exec_frame (cfg : Config) (dials : UInt32 → Addr → Bool) {op : Op} (hplain : Plain op)
    (fuel : Nat) (S : State Server Bool) (addr : Addr) :
    ((exec (commands memcached) cfg dials fuel op S).2.servers addr).clock =
        (S.servers addr).clock ∧
      ∀ full, (∀ key ∈ op.keys.getD [], cfg.cacheKey key ≠ full) →
        ((exec (commands memcached) cfg dials fuel op S).2.servers addr).slot full =
          (S.servers addr).slot full := by
  have hB : ∀ addr, memcached.Respects
      (fun full => ∃ key ∈ op.keys.getD [], cfg.cacheKey key = full)
      fun s s' => s' = s ∧ (S.servers addr).AgreesOutside
        (fun full => ∃ key ∈ op.keys.getD [], cfg.cacheKey key = full) s :=
    fun addr => memcached_respects_outside _ (S.servers addr)
  have hcall : CallRespects _ (exec (commands memcached) cfg dials fuel op) :=
    exec_respects hB hplain (fun key hkey => ⟨key, hkey, rfl⟩) fuel
  rcases hcall S S ⟨fun addr => ⟨rfl, rfl, fun _ _ => rfl⟩, rfl, rfl⟩ with ⟨T', _, hrel⟩
  rcases hrel.servers addr with ⟨_, hclock, hslots⟩
  refine ⟨hclock, fun full hfull => hslots full ?_⟩
  rintro ⟨key, hkey, heq⟩
  exact hfull key hkey heq

/-! ## The items of the keys -/

/-- The servers have the same clock and, for the keys of a set, the same items up to versions. -/
def Server.SameItems (K : Key → Prop) (s s' : Server) : Prop :=
  s'.clock = s.clock ∧ ∀ key, K key → SameView (s.slot key) (s'.slot key)

theorem SameView.filter (h : SameView o o') (now : Nat) :
    SameView (o.filter (Item.live now)) (o'.filter (Item.live now)) := by
  rcases h.elim with ⟨rfl, rfl⟩ | ⟨i, i', rfl, rfl, _, _, hexpires⟩
  · exact rfl
  · have hlive : i'.live now = i.live now := by
      rw [Item.live, Item.live, hexpires]
    rw [Option.filter_some, Option.filter_some, hlive]
    split
    · exact h
    · exact rfl

theorem Server.SameItems.keyed {K : Key → Prop} {s s' : Server} (h : s.SameItems K s') {full : Key}
    (hfull : K full) {f : Nat → Option Item → Option Item × Line} (hf : Versionless f) :
    (s'.keyed full f).2 = (s.keyed full f).2 ∧
      (s.keyed full f).1.SameItems K (s'.keyed full f).1 := by
  have hchange := hf s.nextCas s'.nextCas _ _ (h.2 full hfull)
  refine ⟨hchange.1, h.1, ?_⟩
  intro key hkey
  by_cases hne : key = full
  · subst hne
    rw [Server.slot_keyed_self, Server.slot_keyed_self, h.1]
    exact hchange.2.filter s.clock
  · rw [Server.slot_keyed_ne s hne, Server.slot_keyed_ne s' hne]
    exact h.2 key hkey

/-- The reply to a command on a key, and the item of the key after it, are functions of the item of
that key and the clock, up to versions. -/
theorem memcached_respects_sameItems (K : Key → Prop) :
    memcached.Respects K (Server.SameItems K) where
  lookup := by
    intro s s' full hfull h
    rcases (h.2 full hfull).elim with ⟨hnone, hnone'⟩ | ⟨i, i', hi, hi', _, hdata, _⟩
    · simp only [memcached, hnone, hnone']
    · simp only [memcached, hi, hi', Option.map_some, hdata]
  exec := by
    rintro s s' ⟨_, data⟩ ⟨verb, full, args, rfl, hargs, hfull⟩ h
    change (s'.exec _).2 = (s.exec _).2 ∧ (s.exec _).1.SameItems K (s'.exec _).1
    rcases Server.exec_cases verb full args data with herror | ⟨f, hexec, hf⟩
    · rw [herror s, herror s']
      exact ⟨rfl, h⟩
    · rw [hexec s, hexec s', h.1]
      exact h.keyed hfull (hf hargs s.clock)

end Memcached
end GoforjCache
