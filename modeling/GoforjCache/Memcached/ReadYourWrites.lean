import GoforjCache.Core.Contract
import GoforjCache.Memcached.Hygiene
import GoforjCache.Memcached.Locality

/-!
# Memcached - Reading one's own writes

One client makes calls one after the other, over reachable servers that do not evict or expire
anything.  What the client knows of a key follows from its calls: the value that it has stored, or
that it has deleted the key.  The store reads its own writes if every later `Get` returns that
value, and `Add` succeeds on exactly the keys known to be absent.

Every call goes to the address that the round-robin counter gives, whatever its key.  If all
addresses that the counter can give are one, the store is a map; if two of them differ, a value is
stored at one server and looked for at another.

Main results:

- Theorem `exec_single`: with one address, calls do what the store contract says.
- Theorem `reads_own_writes_iff`: the store reads its own writes if and only if the addresses
  that the counter can give are all equal.
- Theorem `two_addresses_lose_value`: a value is not found, and two locks are granted.
-/

namespace GoforjCache
namespace Memcached

open Function Foundation Foundation.Decimal

/-! ## What a client knows -/

/-- What a client knows of a key. -/
inductive Knowledge where
  | unknown
  | absent
  | value (body : Bytes)
deriving DecidableEq

/-- What a client knows after a call.  A call that fails, or a counter, leaves nothing known of its
keys. -/
def learn (known : Key → Knowledge) : Op → Reply Res → Key → Knowledge
  | .get _, _ => known
  | .set key value _, some (.ok .done) => update known key (.value value)
  | .add key value _, some (.ok (.flag true)) => update known key (.value value)
  | .add _ _ _, some (.ok (.flag false)) => known
  | .lockAcquire key owner _, some (.ok (.flag true)) => update known key (.value owner)
  | .lockAcquire _ _ _, some (.ok (.flag false)) => known
  | .lockRelease key _, some (.ok (.flag true)) => update known key .absent
  | .lockRelease _ _, some (.ok (.flag false)) => known
  | .delete key, some (.ok .done) => update known key .absent
  | .deleteMany keys, some (.ok .done) => fun key => if key ∈ keys then .absent else known key
  | .flush, some (.ok .done) => fun _ => .absent
  | op, _ => fun key => if op.touches key then .unknown else known key

/-- The reply to `Get` that the knowledge asks for. -/
def Knowledge.allowsGet : Knowledge → Reply Res → Prop
  | .unknown, _ => True
  | .absent, reply => reply = some (.ok (.value none))
  | .value body, reply => reply = some (.ok (.value (some body)))

/-- The reply to `Add` that the knowledge asks for. -/
def Knowledge.allowsAdd : Knowledge → Reply Res → Prop
  | .unknown, _ => True
  | .absent, reply => reply = some (.ok (.flag true))
  | .value _, reply => reply = some (.ok (.flag false))

/-- The reply is the one that the client's knowledge asks for. -/
def Agrees (known : Key → Knowledge) : Op → Reply Res → Prop
  | .get key, reply => (known key).allowsGet reply
  | .add key _ _, reply => (known key).allowsAdd reply
  | .lockAcquire key _ _, reply => (known key).allowsAdd reply
  | _, _ => True

/-! ## Runs of one client -/

/-- The store and what its client knows. -/
structure World where
  store : State Server Conn
  known : Key → Knowledge

/-- A call, or time passes. -/
inductive Move where
  | call (op : Op) (fuel : Nat)
  | tick (seconds : Nat)

/-- Time passes at a server. -/
def Server.tick (s : Server) (n : Nat) : Server := { s with clock := s.clock + n }

theorem Item.live_of_later {now n : Nat} {item : Item} (h : item.live (now + n) = true) :
    item.live now = true := by
  unfold Item.live at h ⊢
  split at h
  · rfl
  · simp only [decide_eq_true_eq] at h ⊢
    omega

/-- What is there later is what is there now and does not expire until then. -/
theorem Server.slot_tick (s : Server) (n : Nat) (key : Key) :
    (s.tick n).slot key = (s.slot key).filter (Item.live (s.clock + n)) := by
  unfold Server.slot Server.tick
  dsimp only
  cases s.items key with
  | none => rfl
  | some item =>
    by_cases hlater : item.live (s.clock + n) = true
    · simp [Option.filter_some, hlater, Item.live_of_later hlater]
    · by_cases hnow : item.live s.clock = true <;> simp [Option.filter_some, hlater, hnow]

/-- One move; all servers are reachable. -/
def World.step (cfg : Config) (W : World) : Move → Option World
  | .call op fuel =>
    let r := exec (wire memcached) cfg allDials fuel op W.store
    some ⟨r.2, learn W.known op r.1⟩
  | .tick n =>
    some { W with store := { W.store with servers := fun addr => (W.store.servers addr).tick n } }

/-- The values of the call are ones that a Go slice can hold, and its lifetime is one that the
server counts from now, so that what is stored does not expire at once. -/
def Storable (cfg : Config) : Op → Prop
  | .set _ value ttl | .add _ value ttl | .lockAcquire _ value ttl =>
    value.length ≤ maxAlloc ∧ seconds (cfg.defaultTTL.resolve ttl) ≤ maxRelative
  | _ => True

/-- A call on one-word keys whose values stay. -/
def Admissible (cfg : Config) (op : Op) : Prop := OneWordKeys cfg op ∧ Storable cfg op

/-- The calls are admissible, and nothing expires while time passes. -/
def NoExpiry (cfg : Config) (W : World) : Move → Prop
  | .call op _ => Admissible cfg op
  | .tick n => ∀ addr ∈ cfg.addrs, ∀ key,
      ((W.store.servers addr).tick n).slot key = (W.store.servers addr).slot key

/-- The beginning: a key is known to be absent if no server has it. -/
def World.init (cfg : Config) (servers : Addr → Server) (rr : UInt32) : World where
  store := State.init servers rr
  known key :=
    if ∀ addr ∈ cfg.addrs, ((servers addr).slot (cfg.cacheKey key)).isNone = true then .absent
    else .unknown

/-- In every run, from every contents of the servers and every value of the counter, every call has
the reply that the client's knowledge asks for. -/
def ReadsOwnWrites (cfg : Config) : Prop :=
  ∀ servers rr moves W, (∀ addr, expiredMemcachedTimestamp ≤ (servers addr).clock) →
    Transition.Along (World.step cfg) (NoExpiry cfg) (World.init cfg servers rr) moves →
    Transition.run (World.step cfg) (World.init cfg servers rr) moves = some W →
    ∀ op fuel, Admissible cfg op →
      Agrees W.known op (exec (wire memcached) cfg allDials fuel op W.store).1

/-! ## Knowledge of a map -/

/-- The value that a change leaves. -/
def valueAfter : Change → Option Bytes → Option Bytes
  | .keep, live => live
  | .put value _, _ => some value
  | .drop, _ => none

/-- What a call other than a counter does to a map, by the store contract. -/
def mapStep (m : Key → Option Bytes) (op : Op) : Option (Res × (Key → Option Bytes)) :=
  match op with
  | .increment _ _ _ | .decrement _ _ _ => none
  | .deleteMany keys => some (.done, fun key => if key ∈ keys then none else m key)
  | .flush => some (.done, fun _ => none)
  | op => op.single.map fun key =>
    ((op.plan (m key)).2, update m key (valueAfter (op.plan (m key)).1 (m key)))

/-- The knowledge is true of a value. -/
def Knowledge.Holds : Knowledge → Option Bytes → Prop
  | .unknown, _ => True
  | .absent, live => live = none
  | .value body, live => live = some body

/-- The knowledge is true of a map. -/
def Sound (known : Key → Knowledge) (m : Key → Option Bytes) : Prop :=
  ∀ key, (known key).Holds (m key)

variable {known : Key → Knowledge} {m : Key → Option Bytes}

theorem Sound.update (h : Sound known m) {key : Key} {k : Knowledge} {live : Option Bytes}
    (hk : k.Holds live) : Sound (update known key k) (update m key live) := by
  intro key'
  by_cases heq : key' = key
  · subst heq
    simpa using hk
  · simpa [heq] using h key'

theorem Sound.add (h : Sound known m) (key : Key) (value : Bytes) (ttl : Duration) :
    (known key).allowsAdd (some (.ok (planAdd value ttl (m key)).2)) ∧
      ((planAdd value ttl (m key)).2 = .flag true ∧
          valueAfter (planAdd value ttl (m key)).1 (m key) = some value ∨
        (planAdd value ttl (m key)).2 = .flag false ∧
          valueAfter (planAdd value ttl (m key)).1 (m key) = m key) := by
  have hkey := h key
  cases hlive : m key with
  | none =>
    rw [hlive] at hkey
    refine ⟨?_, Or.inl ⟨rfl, rfl⟩⟩
    cases hknown : known key with
    | unknown => trivial
    | absent => rfl
    | value body =>
      rw [hknown] at hkey
      cases hkey
  | some live =>
    rw [hlive] at hkey
    refine ⟨?_, Or.inr ⟨rfl, rfl⟩⟩
    cases hknown : known key with
    | unknown => trivial
    | absent =>
      rw [hknown] at hkey
      cases hkey
    | value body => rfl

/-- A map reads its own writes. -/
theorem Sound.mapStep {m' : Key → Option Bytes} (h : Sound known m) {op : Op} {res : Res}
    (hstep : mapStep m op = some (res, m')) :
    Agrees known op (some (.ok res)) ∧ Sound (learn known op (some (.ok res))) m' := by
  cases op with
  | increment key delta ttl => cases hstep
  | decrement key delta ttl => cases hstep
  | get key =>
    cases hstep
    have hkey := h key
    refine ⟨?_, ?_⟩
    · cases hknown : known key with
      | unknown => simp only [Agrees, hknown, Knowledge.allowsGet]
      | absent =>
        rw [hknown] at hkey
        simp only [Agrees, hknown, Knowledge.allowsGet, Op.plan, show m key = none from hkey]
      | value body =>
        rw [hknown] at hkey
        simp only [Agrees, hknown, Knowledge.allowsGet, Op.plan, show m key = some body from hkey]
    · simpa [Op.plan, valueAfter, learn] using h
  | set key value ttl =>
    cases hstep
    exact ⟨trivial, h.update rfl⟩
  | add key value ttl | lockAcquire key value ttl =>
    cases hstep
    rcases h.add key value ttl with ⟨hallows, ⟨hres, hafter⟩ | ⟨hres, hafter⟩⟩
    · refine ⟨hallows, ?_⟩
      simp only [Op.plan, hres, hafter]
      exact h.update rfl
    · refine ⟨hallows, ?_⟩
      simp only [Op.plan, hres, hafter, update_eq_self]
      exact h
  | delete key =>
    cases hstep
    exact ⟨trivial, h.update rfl⟩
  | deleteMany keys =>
    cases hstep
    refine ⟨trivial, ?_⟩
    intro key
    by_cases hmem : key ∈ keys
    · simp only [learn, hmem, if_true, Knowledge.Holds]
    · simpa only [learn, hmem, if_false] using h key
  | flush =>
    cases hstep
    exact ⟨trivial, fun key => rfl⟩
  | lockRelease key owner =>
    cases hstep
    refine ⟨trivial, ?_⟩
    by_cases howner : m key = some owner
    · simp only [Op.plan, howner, if_true]
      exact h.update rfl
    · simp only [Op.plan, howner, if_false, valueAfter, update_eq_self]
      exact h

/-- After a counter nothing is known of its key. -/
theorem Sound.counter {m' : Key → Option Bytes} (h : Sound known m) {op : Op}
    (hcounter : Memcached.mapStep m op = none)
    (hother : ∀ key, op.touches key = false → m' key = m key) (reply : Reply Res) :
    Agrees known op reply ∧ Sound (learn known op reply) m' := by
  have hlearn : Sound (fun key => if op.touches key then .unknown else known key) m' := by
    intro key
    cases htouches : op.touches key with
    | true => simp [htouches, Knowledge.Holds]
    | false =>
      rw [hother key htouches]
      simpa [htouches] using h key
  cases op with
  | increment key delta ttl => exact ⟨trivial, hlearn⟩
  | decrement key delta ttl => exact ⟨trivial, hlearn⟩
  | _ => cases hcounter

/-! ## One address -/

/-- The value that a server holds. -/
def Server.read (s : Server) (full : Key) : Option Bytes :=
  (s.slot full).map fun item => item.entry.data

/-- The values that a server holds for the keys of the store. -/
def contents (cfg : Config) (s : Server) (key : Key) : Option Bytes := s.read (cfg.cacheKey key)

theorem Config.cacheKey_injective (cfg : Config) : Injective cfg.cacheKey := by
  intro key key' h
  unfold Config.cacheKey at h
  split at h
  · exact h
  · exact (List.cons.inj (List.append_cancel_left h)).2

/-- The values after a command on one key of the store. -/
theorem contents_keyed (cfg : Config) (s : Server) (key : Key)
    (f : Nat → Option Item → Option Item × Line) :
    contents cfg (s.keyed (cfg.cacheKey key) f).1 =
      update (contents cfg s) key
        (((f s.nextCas (s.slot (cfg.cacheKey key))).1.filter (Item.live s.clock)).map
          fun item => item.entry.data) := by
  funext key'
  by_cases heq : key' = key
  · subst heq
    rw [update_self, contents, Server.read, Server.slot_keyed_self]
  · have hne : cfg.cacheKey key' ≠ cfg.cacheKey key := fun h => heq (cfg.cacheKey_injective h)
    rw [update_of_ne heq, contents, Server.read, Server.slot_keyed_ne s hne]
    rfl

/-- How a call ends that ends with an exchange. -/
def Outcome.reply {α : Type} : Outcome α → Reply α
  | .ok a => some (.ok a)
  | .err e _ => some (.error e)
  | .blocked => none

section Single

variable {σ : Type} {B : Backend σ} {cfg : Config}

theorem State.release_eq {γ : Type} (S : State σ γ) (addr : Addr) (c : γ) (bad : Bool) :
    ∃ pools, S.release addr c bad = { S with pools } := by
  unfold State.release
  split
  · exact ⟨_, rfl⟩
  · split
    · exact ⟨_, rfl⟩
    · exact ⟨_, rfl⟩

variable {S : State σ Unit} {b : Addr}

/-- A call over open connections has one to the address that the counter gives. -/
theorem withConn_at {α : Type} {body : Addr → Action (State σ Unit) Unit α}
    (hb : (cfg.addrs.rotate (S.rr.toNat % cfg.addrs.length)).head? = some b) :
    ∃ S₁ S', S₁.servers = S.servers ∧ S₁.rr = S.rr + 1 ∧
      withConn (opened B) cfg allDials body S = ((body b S₁ ()).1.reply, S') ∧
      S'.servers = (body b S₁ ()).2.1.servers ∧ S'.rr = (body b S₁ ()).2.1.rr := by
  have hne : cfg.addrs ≠ [] := by
    intro hnil
    simp [hnil] at hb
  rcases hrotate : cfg.addrs.rotate (S.rr.toNat % cfg.addrs.length) with _ | ⟨b', rest⟩
  · simp [hrotate] at hb
  obtain rfl : b' = b := by simpa [hrotate] using hb
  have hacquire : ∃ pools, acquire (opened B) cfg allDials S =
      (.ok (b', ()), ⟨S.servers, pools, S.rr + 1⟩) := by
    unfold acquire
    rw [if_neg hne, hrotate]
    unfold acquireFrom
    dsimp only
    split
    · exact ⟨_, rfl⟩
    · exact ⟨_, rfl⟩
  rcases hacquire with ⟨pools, hacquire⟩
  refine ⟨⟨S.servers, pools, S.rr + 1⟩, ?_⟩
  unfold withConn
  rw [hacquire]
  dsimp only
  rcases body b' ⟨S.servers, pools, S.rr + 1⟩ () with ⟨a | ⟨e, bad⟩ | _, T, _⟩
  · rcases T.release_eq b' () false with ⟨pools', hpools⟩
    exact ⟨_, rfl, rfl, rfl, by rw [hpools], by rw [hpools]⟩
  · rcases T.release_eq b' () bad with ⟨pools', hpools⟩
    exact ⟨_, rfl, rfl, rfl, by rw [hpools], by rw [hpools]⟩
  · exact ⟨_, rfl, rfl, rfl, rfl, rfl⟩

theorem exchange_at {α : Type} {f : Action σ Unit α}
    (hb : (cfg.addrs.rotate (S.rr.toNat % cfg.addrs.length)).head? = some b) :
    ∃ S', exchange (opened B) cfg allDials f S = ((f (S.servers b) ()).1.reply, S') ∧
      S'.servers = update S.servers b (f (S.servers b) ()).2.1 ∧ S'.rr = S.rr + 1 := by
  rcases withConn_at (B := B) hb with ⟨S₁, S', hsame, hcounter, heq, hservers, hrr⟩
  refine ⟨S', heq.trans ?_, hservers.trans ?_, hrr.trans hcounter⟩
  · rw [onServer, hsame]
  · rw [onServer, hsame]

/-- A call of the contract that succeeds, at the address that the counter gives. -/
theorem map_exchange_at {α : Type} {f : Action σ Unit α}
    (hb : (cfg.addrs.rotate (S.rr.toNat % cfg.addrs.length)).head? = some b) {a : α} {s' : σ}
    (hf : f (S.servers b) () = (.ok a, s', ())) (g : α → Res) :
    ∃ S', (exchange (opened B) cfg allDials f).map g S = (some (.ok (g a)), S') ∧
      S'.servers = update S.servers b s' ∧ S'.rr = S.rr + 1 := by
  rcases exchange_at (B := B) (f := f) hb with ⟨S', heq, hservers, hrr⟩
  rw [hf] at heq hservers
  refine ⟨S', ?_, hservers, hrr⟩
  unfold Call.map Call.andThen
  rw [heq]
  rfl

end Single

/-! ## The exchanges of the store with a server -/

section Exchanges

variable (s : Server) (full : Key)

theorem get_opened : (opened memcached).get full s () = (.ok (s.read full), s, ()) := by
  simp only [opened, memcached, Option.map_map]
  rfl

/-- A storage command on the server. -/
theorem exec_storage (verb : Bytes) (ttl : Duration) (value : Bytes) :
    memcached.exec s ⟨storageWords verb full (seconds ttl) value.length, some value⟩ =
      s.keyed full (storageChange verb 0 (deadline s.clock (seconds ttl)) value) := by
  have hzero : (parseDigits (ascii "0")).getD 0 = 0 := by decide
  rw [← s.storageDeadline_formatNat (seconds_lt ttl)]
  change s.keyed full (storageChange verb ((parseDigits (ascii "0")).getD 0) _ value) = _
  rw [hzero]

theorem seconds_pos (ttl : Duration) : 0 < seconds ttl := by
  unfold seconds
  split <;> omega

variable {value : Bytes} {ttl : Duration}

/-- What is written with a relative lifetime is there. -/
theorem written_newItem (hvalue : value.length ≤ maxAlloc) (httl : seconds ttl ≤ maxRelative)
    (cas : Nat) :
    ∃ item, written (newItem 0 value cas (deadline s.clock (seconds ttl))) = (some item, .stored) ∧
      item.live s.clock = true ∧ item.entry.data = value := by
  rw [newItem_of_le hvalue]
  exact ⟨_, rfl, live_deadline (seconds_pos ttl) httl _, rfl⟩

theorem set_opened (hvalue : value.length ≤ maxAlloc) (httl : seconds ttl ≤ maxRelative) :
    (opened memcached).set full ttl value s () =
      (.ok (), (s.keyed full (storageChange (ascii "set") 0 (deadline s.clock (seconds ttl))
        value)).1, ()) := by
  rcases written_newItem s hvalue httl s.nextCas with ⟨item, hwritten, _⟩
  have hline : (s.keyed full (storageChange (ascii "set") 0 (deadline s.clock (seconds ttl))
      value)).2 = .stored := by
    simp only [Server.keyed, storageChange_set, hwritten]
  change (expect (ascii "STORED") .setFailed ((memcached.exec s _).2.text ++ Words.crlf),
    (memcached.exec s _).1, ()) = _
  rw [exec_storage, hline]
  rfl

theorem add_opened (hvalue : value.length ≤ maxAlloc) (httl : seconds ttl ≤ maxRelative) :
    (opened memcached).add full ttl value s () =
      (.ok (s.slot full).isNone, (s.keyed full (storageChange (ascii "add") 0
        (deadline s.clock (seconds ttl)) value)).1, ()) := by
  have hline : (s.keyed full (storageChange (ascii "add") 0 (deadline s.clock (seconds ttl))
      value)).2 = if (s.slot full).isNone then Line.stored else .notStored := by
    rcases written_newItem s hvalue httl s.nextCas with ⟨item, hwritten, _⟩
    unfold Server.keyed
    cases s.slot full with
    | none => simp only [storageChange_add_none, hwritten, Option.isNone_none, if_true]
    | some item' => rfl
  change (addReply ((memcached.exec s _).2.text ++ Words.crlf), (memcached.exec s _).1, ()) = _
  rw [exec_storage, hline]
  cases s.slot full <;> rfl

theorem delete_opened :
    (opened memcached).delete full s () = (.ok (), (s.keyed full fun _ => deleteChange).1, ()) := by
  change (Outcome.ok (), (s.exec _).1, ()) = _
  rw [Server.exec_delete]

theorem flush_opened :
    (opened memcached).flush s () = (.ok (), { s with items := fun _ => none }, ()) := rfl

/-- The `cas` command of `LockRelease`, with the version that it got. -/
def releaseChange (s : Server) (version : Nat) : Nat → Option Item → Option Item × Line :=
  casChange 0 (deadline s.clock expiredMemcachedTimestamp) [] (formatNat version)

theorem exec_release (version : Nat) :
    memcached.exec s ⟨storageWords (ascii "cas") full expiredMemcachedTimestamp 0 ++
      [formatNat version], some []⟩ = s.keyed full (releaseChange s version) := by
  have hzero : (parseDigits (ascii "0")).getD 0 = 0 := by decide
  have hdeadline : s.storageDeadline (formatNat expiredMemcachedTimestamp) =
      deadline s.clock expiredMemcachedTimestamp := s.storageDeadline_formatNat (by decide)
  rw [releaseChange, ← hdeadline]
  change s.keyed full (casChange ((parseDigits (ascii "0")).getD 0) _ [] _) = _
  rw [hzero]

/-- The expiration time that `LockRelease` sends is in the past. -/
theorem expired_deadline {now : Nat} (hclock : expiredMemcachedTimestamp ≤ now) (e : Entry) :
    (Item.mk e (deadline now expiredMemcachedTimestamp)).live now = false := by
  have hdeadline : deadline now expiredMemcachedTimestamp = some expiredMemcachedTimestamp := by
    unfold deadline
    rw [if_neg (by decide), if_neg (by decide), if_neg (by decide), Int.toNat_natCast]
  simpa [Item.live, hdeadline] using hclock

/-- The version is current, and the item is replaced by one that has expired. -/
theorem releaseChange_current (hclock : expiredMemcachedTimestamp ≤ s.clock) (item : Item)
    (cas : Nat) :
    ∃ item', releaseChange s item.entry.cas cas (some item) = (some item', .stored) ∧
      item'.live s.clock = false := by
  have hshort : ([] : Bytes).length ≤ maxAlloc := Nat.zero_le _
  unfold releaseChange casChange
  dsimp only
  rw [if_pos (parseDigits_formatNat item.entry.cas), newItem_of_le hshort]
  exact ⟨_, rfl, expired_deadline hclock _⟩

/-- `LockRelease` removes the value of its owner and no other. -/
theorem release_opened (cfg : Config) (key : Key) (owner : Bytes)
    (hclock : expiredMemcachedTimestamp ≤ s.clock) :
    ∃ s', (opened memcached).release (cfg.cacheKey key) owner s () =
        (.ok (decide (contents cfg s key = some owner)), s', ()) ∧ s'.clock = s.clock ∧
      contents cfg s' = if contents cfg s key = some owner then
        update (contents cfg s) key none else contents cfg s := by
  cases hslot : s.slot (cfg.cacheKey key) with
  | none =>
    have hmiss : contents cfg s key = none := by rw [contents, Server.read, hslot]; rfl
    refine ⟨s, ?_, rfl, ?_⟩
    · simp only [Link.release, opened, memcached, hslot, Action.andThen, hmiss]
      rfl
    · rw [hmiss, if_neg (by simp)]
  | some item =>
    have hvalue : contents cfg s key = some item.entry.data := by
      rw [contents, Server.read, hslot]; rfl
    have hgets : (opened memcached).gets (cfg.cacheKey key) s () =
        (.ok (some (item.entry.data, formatNat item.entry.cas)), s, ()) := by
      simp only [opened, memcached, hslot]
      rfl
    unfold Link.release
    rw [Action.andThen_ok hgets]
    dsimp only
    by_cases howner : item.entry.data = owner
    · rcases releaseChange_current s hclock item s.nextCas with ⟨item', hchange, hdead⟩
      have hline : (s.keyed (cfg.cacheKey key) (releaseChange s item.entry.cas)).2 = .stored := by
        simp only [Server.keyed, hslot, hchange]
      refine ⟨(s.keyed (cfg.cacheKey key) (releaseChange s item.entry.cas)).1, ?_, rfl, ?_⟩
      · rw [if_neg (not_not.mpr howner)]
        change (releaseReply ((memcached.exec s _).2.text ++ Words.crlf),
          (memcached.exec s _).1, ()) = _
        rw [exec_release, hline, hvalue, howner, decide_eq_true rfl]
        rfl
      · rw [contents_keyed, hslot, hchange, hvalue, howner, if_pos rfl]
        simp [Option.filter, hdead]
    · have hne : some item.entry.data ≠ some owner := fun h => howner (Option.some.inj h)
      refine ⟨s, ?_, rfl, ?_⟩
      · rw [if_pos howner, hvalue, decide_eq_false hne]
        rfl
      · rw [hvalue, if_neg hne]

end Exchanges

/-! ## The store as a map -/

section Map

variable {cfg : Config} {a : Addr}

/-- What a call does to the server is what the contract says of the map of its values, and a counter
changes no other key. -/
def Meets (cfg : Config) (s s' : Server) (op : Op) (reply : Reply Res) : Prop :=
  s'.clock = s.clock ∧
    match mapStep (contents cfg s) op with
    | some (res, m') => reply = some (.ok res) ∧ contents cfg s' = m'
    | none => ∀ key, op.touches key = false → contents cfg s' key = contents cfg s key

/-- The counter always gives one address. -/
def OneAddress (cfg : Config) (a : Addr) : Prop :=
  ∀ rr : UInt32, (cfg.addrs.rotate (rr.toNat % cfg.addrs.length)).head? = some a

theorem deleteMany_single (ha : OneAddress cfg a) (keys : List Key) (S : State Server Unit) :
    ∃ S', deleteMany (opened memcached) cfg allDials keys S = (some (.ok ()), S') ∧
      (S'.servers a).clock = (S.servers a).clock ∧
      contents cfg (S'.servers a) =
        fun key => if key ∈ keys then none else contents cfg (S.servers a) key := by
  induction keys generalizing S with
  | nil => exact ⟨S, rfl, rfl, by simp⟩
  | cons key keys ih =>
    rcases exchange_at (B := memcached) (f := (opened memcached).delete (cfg.cacheKey key))
      (ha S.rr) with ⟨T, hdelete, hservers, _⟩
    rcases ih T with ⟨S', hrest, hclock, hcontents⟩
    have hserver : T.servers a =
        ((S.servers a).keyed (cfg.cacheKey key) fun _ => deleteChange).1 := by
      rw [hservers, update_self, delete_opened]
    refine ⟨S', ?_, ?_, ?_⟩
    · unfold deleteMany Call.andThen Memcached.delete
      rw [hdelete]
      exact hrest
    · rw [hclock, hserver, Server.keyed_clock]
    · rw [hcontents, hserver, contents_keyed]
      funext key'
      by_cases heq : key' = key
      · subst heq
        cases (S.servers a).slot (cfg.cacheKey key') <;> simp [deleteChange]
      · simp [heq]

/-- A call with one exchange that succeeds. -/
theorem meets_of_exchange (ha : OneAddress cfg a) {α : Type} {op : Op} {fuel : Nat}
    {f : Action Server Unit α} {g : α → Res} (hexec : exec (opened memcached) cfg allDials fuel op =
      (exchange (opened memcached) cfg allDials f).map g) {S : State Server Unit} {x : α}
    {s' : Server} (hf : f (S.servers a) () = (.ok x, s', ()))
    (hmeets : Meets cfg (S.servers a) s' op (some (.ok (g x)))) :
    Meets cfg (S.servers a) ((exec (opened memcached) cfg allDials fuel op S).2.servers a) op
      (exec (opened memcached) cfg allDials fuel op S).1 := by
  rcases map_exchange_at (B := memcached) (ha S.rr) hf g with ⟨S', hcall, hservers, _⟩
  rw [hexec, hcall]
  dsimp only
  rw [hservers, update_self]
  exact hmeets

theorem contents_set (s : Server) (key : Key) {ttl : Duration} {value : Bytes}
    (hvalue : value.length ≤ maxAlloc) (httl : seconds ttl ≤ maxRelative) :
    contents cfg (s.keyed (cfg.cacheKey key) (storageChange (ascii "set") 0
      (deadline s.clock (seconds ttl)) value)).1 = update (contents cfg s) key (some value) := by
  rcases written_newItem s hvalue httl s.nextCas with ⟨item, hwritten, hlive, hdata⟩
  rw [contents_keyed, storageChange_set, hwritten]
  simp [Option.filter, hlive, hdata]

/-- The values after `add`, and its answer, are those of the contract. -/
theorem meets_add (cfg : Config) (s : Server) (key : Key) {ttl : Duration} {value : Bytes}
    (hvalue : value.length ≤ maxAlloc) (httl : seconds ttl ≤ maxRelative) (ttl' : Duration) :
    Res.flag (s.slot (cfg.cacheKey key)).isNone = (planAdd value ttl' (contents cfg s key)).2 ∧
      contents cfg (s.keyed (cfg.cacheKey key) (storageChange (ascii "add") 0
        (deadline s.clock (seconds ttl)) value)).1 =
          update (contents cfg s) key
            (valueAfter (planAdd value ttl' (contents cfg s key)).1 (contents cfg s key)) := by
  rw [contents_keyed]
  cases hslot : s.slot (cfg.cacheKey key) with
  | none =>
    have hmiss : contents cfg s key = none := by rw [contents, Server.read, hslot]; rfl
    rcases written_newItem s hvalue httl s.nextCas with ⟨item, hwritten, hlive, hdata⟩
    rw [hmiss, storageChange_add_none, hwritten]
    refine ⟨rfl, ?_⟩
    simp [Option.filter, hlive, hdata, planAdd, valueAfter]
  | some item =>
    have hvalue : contents cfg s key = some item.entry.data := by
      rw [contents, Server.read, hslot]; rfl
    rw [hvalue, storageChange_add_some]
    refine ⟨rfl, ?_⟩
    simp [Option.filter, Server.live_of_slot hslot, planAdd, valueAfter]

/-- Counters change no other key. -/
theorem meets_counter {op : Op} (hkeys : OneWordKeys cfg op) (hplain : Plain op)
    (hcounter : ∀ m, mapStep m op = none) (fuel : Nat) (S : State Server Unit) :
    Meets cfg (S.servers a) ((exec (opened memcached) cfg allDials fuel op S).2.servers a) op
      (exec (opened memcached) cfg allDials fuel op S).1 := by
  have hsim : exec (commands memcached) cfg allDials fuel op (S.map fun _ => true) = _ :=
    (linkSim_opened memcached).exec hkeys fuel S
  rcases exec_frame cfg allDials hplain fuel (S.map fun _ => true) a with ⟨hclock, hslots⟩
  rw [hsim] at hclock hslots
  refine ⟨hclock, ?_⟩
  rw [hcounter]
  intro key htouches
  refine congrArg (Option.map _) (hslots (cfg.cacheKey key) ?_)
  intro key' hkey' heq
  rw [cfg.cacheKey_injective heq] at hkey'
  unfold Op.touches at htouches
  cases hop : op.keys with
  | none => simp [hop] at hkey'
  | some keys =>
    rw [hop] at hkey' htouches
    simp only [Option.getD_some] at hkey'
    simp [hkey'] at htouches

/-- With one address, calls do what the store contract says. -/
theorem exec_single (ha : OneAddress cfg a) {op : Op} (hop : Admissible cfg op) (fuel : Nat)
    (S : State Server Unit) (hclock : expiredMemcachedTimestamp ≤ (S.servers a).clock) :
    Meets cfg (S.servers a) ((exec (opened memcached) cfg allDials fuel op S).2.servers a) op
      (exec (opened memcached) cfg allDials fuel op S).1 := by
  cases op with
  | get key =>
    exact meets_of_exchange ha rfl (get_opened (S.servers a) (cfg.cacheKey key))
      ⟨rfl, rfl, (update_eq_self _ _).symm⟩
  | set key value ttl =>
    exact meets_of_exchange ha rfl (set_opened (S.servers a) (cfg.cacheKey key) hop.2.1 hop.2.2)
      ⟨rfl, rfl, contents_set (S.servers a) key hop.2.1 hop.2.2⟩
  | add key value ttl =>
    have hadd := meets_add cfg (S.servers a) key hop.2.1 hop.2.2 ttl
    exact meets_of_exchange ha rfl (add_opened (S.servers a) (cfg.cacheKey key) hop.2.1 hop.2.2)
      ⟨rfl, congrArg (fun res => some (Except.ok res)) hadd.1, hadd.2⟩
  | increment key delta ttl => exact meets_counter hop.1 trivial (fun _ => rfl) fuel S
  | decrement key delta ttl => exact meets_counter hop.1 trivial (fun _ => rfl) fuel S
  | delete key =>
    refine meets_of_exchange ha rfl (delete_opened (S.servers a) (cfg.cacheKey key))
      ⟨rfl, rfl, ?_⟩
    rw [contents_keyed]
    cases (S.servers a).slot (cfg.cacheKey key) <;> rfl
  | deleteMany keys =>
    rcases deleteMany_single ha keys S with ⟨S', hcall, hclock', hcontents⟩
    have hexec : exec (opened memcached) cfg allDials fuel (.deleteMany keys) S =
        (some (.ok .done), S') := by
      rw [exec, Call.map, Call.andThen, hcall]
      rfl
    rw [hexec]
    exact ⟨hclock', rfl, hcontents⟩
  | flush => exact meets_of_exchange ha rfl (flush_opened (S.servers a)) ⟨rfl, rfl, rfl⟩
  | lockAcquire key owner ttl =>
    have hadd := meets_add cfg (S.servers a) key hop.2.1 hop.2.2 ttl
    exact meets_of_exchange ha rfl (add_opened (S.servers a) (cfg.cacheKey key) hop.2.1 hop.2.2)
      ⟨rfl, congrArg (fun res => some (Except.ok res)) hadd.1, hadd.2⟩
  | lockRelease key owner =>
    rcases release_opened (S.servers a) cfg key owner hclock with ⟨s', hcall, hclock', hcontents⟩
    refine meets_of_exchange ha rfl hcall ⟨hclock', ?_, ?_⟩
    · by_cases howner : contents cfg (S.servers a) key = some owner
      · simp [Op.plan, howner]
      · simp [Op.plan, howner]
    · rw [hcontents]
      by_cases howner : contents cfg (S.servers a) key = some owner
      · simp [Op.plan, howner, valueAfter]
      · simp [Op.plan, howner, valueAfter]

end Map

/-! ## Runs over one address -/

section OneAddress

variable {cfg : Config} {a : Addr}

/-- All connections are open and idle, the clock is past 1970, and what the client knows is true of
the server. -/
structure World.Inv (cfg : Config) (a : Addr) (W : World) : Prop where
  idle : ∃ S : State Server Unit, W.store = S.map fun _ => Conn.idle true
  clock : expiredMemcachedTimestamp ≤ (W.store.servers a).clock
  sound : Sound W.known (contents cfg (W.store.servers a))

/-- A call over idle connections is one over open connections. -/
theorem exec_opened {σ : Type} (B : Backend σ) {dials : UInt32 → Addr → Bool} {op : Op}
    (hop : OneWordKeys cfg op) (fuel : Nat) :
    CallSim (fun _ => Conn.idle true) (exec (opened B) cfg dials fuel op)
      (exec (wire B) cfg dials fuel op) :=
  ((linkSim_opened B).exec hop fuel).trans ((linkSim_wire B).exec hop fuel)

/-- A call agrees with what the client knows, and what it learns is true. -/
theorem World.Inv.call {W : World} (h : W.Inv cfg a) (ha : OneAddress cfg a) {op : Op}
    (hop : Admissible cfg op) (fuel : Nat) :
    Agrees W.known op (exec (wire memcached) cfg allDials fuel op W.store).1 ∧
      World.Inv cfg a ⟨(exec (wire memcached) cfg allDials fuel op W.store).2,
        learn W.known op (exec (wire memcached) cfg allDials fuel op W.store).1⟩ := by
  rcases W with ⟨store, known⟩
  rcases h with ⟨⟨S, hS⟩, hclock, hsound⟩
  dsimp only at hS hclock hsound ⊢
  subst hS
  have hmeets := exec_single ha hop fuel S hclock
  rw [exec_opened memcached hop.1 fuel S]
  rcases hmeets with ⟨hclock', hmap⟩
  have hclock'' : expiredMemcachedTimestamp ≤
      ((exec (opened memcached) cfg allDials fuel op S).2.servers a).clock :=
    hclock.trans_eq hclock'.symm
  cases hstep : mapStep (contents cfg (S.servers a)) op with
  | some r =>
    rcases r with ⟨res, m'⟩
    rw [hstep] at hmap
    rcases hmap with ⟨hreply, hcontents⟩
    rcases hsound.mapStep hstep with ⟨hagrees, hlearn⟩
    rw [hreply]
    refine ⟨hagrees, ⟨_, rfl⟩, hclock'', ?_⟩
    change Sound _ (contents cfg ((exec (opened memcached) cfg allDials fuel op S).2.servers a))
    rw [hcontents]
    exact hlearn
  | none =>
    rw [hstep] at hmap
    rcases hsound.counter hstep hmap (exec (opened memcached) cfg allDials fuel op S).1 with
      ⟨hagrees, hlearn⟩
    exact ⟨hagrees, ⟨_, rfl⟩, hclock'', hlearn⟩

/-- Time that lets nothing expire. -/
theorem World.Inv.tick {W : World} (h : W.Inv cfg a) (n : Nat)
    (hkeep : ∀ key, ((W.store.servers a).tick n).slot key = (W.store.servers a).slot key) :
    World.Inv cfg a { W with
      store := { W.store with servers := fun addr => (W.store.servers addr).tick n } } := by
  rcases h with ⟨⟨S, hS⟩, hclock, hsound⟩
  refine ⟨⟨{ S with servers := fun addr => (W.store.servers addr).tick n }, ?_⟩, ?_, ?_⟩
  · rw [hS]
    rfl
  · exact hclock.trans (Nat.le_add_right _ n)
  · intro key
    have hread :
        contents cfg ((W.store.servers a).tick n) key = contents cfg (W.store.servers a) key :=
      congrArg (Option.map _) (hkeep (cfg.cacheKey key))
    dsimp only
    rw [hread]
    exact hsound key

theorem World.Inv.step {W W' : World} (h : W.Inv cfg a) (ha : OneAddress cfg a)
    (hmem : a ∈ cfg.addrs) {move : Move} (hmove : NoExpiry cfg W move)
    (hstep : W.step cfg move = some W') : W'.Inv cfg a := by
  cases move with
  | call op fuel =>
    rw [← Option.some.inj hstep]
    exact (h.call ha hmove fuel).2
  | tick n =>
    rw [← Option.some.inj hstep]
    exact h.tick n fun key => hmove a hmem key

theorem World.inv_init (hmem : a ∈ cfg.addrs) {servers : Addr → Server} (rr : UInt32)
    (hclock : expiredMemcachedTimestamp ≤ (servers a).clock) :
    (World.init cfg servers rr).Inv cfg a := by
  refine ⟨⟨State.init servers rr, rfl⟩, hclock, ?_⟩
  intro key
  dsimp only [World.init]
  split
  · rename_i hnone
    have hslot := Option.isNone_iff_eq_none.mp (hnone a hmem)
    change contents cfg (servers a) key = none
    rw [contents, Server.read, hslot]
    rfl
  · trivial

/-- A store with one address reads its own writes. -/
theorem reads_own_writes_of_oneAddress (ha : OneAddress cfg a) (hmem : a ∈ cfg.addrs) :
    ReadsOwnWrites cfg := by
  intro servers rr moves W hclock halong hrun op fuel hop
  have hinv : W.Inv cfg a :=
    Transition.run_preserves_along
      (fun _ _ _ hW hmove hstep => hW.step ha hmem hmove hstep)
      (World.inv_init hmem rr (hclock a)) halong hrun
  exact (hinv.call ha hop fuel).1

end OneAddress

/-! ## Two addresses -/

section TwoAddresses

variable {cfg : Config}

/-- The address that the counter gives. -/
theorem head_rotate {rr : UInt32} {i : Nat} (hrr : rr.toNat = i) (hi : i < cfg.addrs.length) :
    (cfg.addrs.rotate (rr.toNat % cfg.addrs.length)).head? = cfg.addrs[i]? := by
  rw [hrr, Nat.mod_eq_of_lt hi, List.head?_rotate hi]

/-- In a list that is not constant two neighbours differ. -/
theorem exists_ne_next {α : Type} {l : List α} (h : ¬∀ x ∈ l, ∀ y ∈ l, x = y) :
    ∃ (i : Nat) (x y : α), l[i]? = some x ∧ l[i + 1]? = some y ∧ x ≠ y := by
  by_contra hnone
  push Not at hnone
  have hchain : l.IsChain (· = ·) := by
    refine List.isChain_iff_getElem.mpr ?_
    intro i hi
    exact hnone i _ _ (List.getElem?_eq_getElem (by omega)) (List.getElem?_eq_getElem hi)
  exact h fun x hx y hy =>
    (List.isChain_iff_pairwise.mp hchain).forall_of_forall (fun _ _ => rfl) hx hy

/-- A lifetime of one second. -/
def oneSecond : Duration := 1000000000

theorem seconds_oneSecond (d : DefaultTTL) : seconds (d.resolve oneSecond) ≤ maxRelative := by
  rw [d.resolve_of_pos (by decide)]
  decide +kernel

/-- A call of the source that succeeds, at the address that the counter gives. -/
theorem exec_at {σ α : Type} {B : Backend σ} {op : Op} (hop : OneWordKeys cfg op) {fuel : Nat}
    {f : Action σ Unit α} {g : α → Res}
    (hexec : exec (opened B) cfg allDials fuel op = (exchange (opened B) cfg allDials f).map g)
    {S : State σ Unit} {b : Addr}
    (hb : (cfg.addrs.rotate (S.rr.toNat % cfg.addrs.length)).head? = some b) {a : α} {s' : σ}
    (hf : f (S.servers b) () = (.ok a, s', ())) :
    ∃ S' : State σ Unit, exec (wire B) cfg allDials fuel op (S.map fun _ => Conn.idle true) =
        (some (.ok (g a)), S'.map fun _ => Conn.idle true) ∧
      S'.servers = update S.servers b s' ∧ S'.rr = S.rr + 1 := by
  rcases map_exchange_at (B := B) hb hf g with ⟨S', hcall, hservers, hrr⟩
  refine ⟨S', ?_, hservers, hrr⟩
  rw [exec_opened B hop fuel S, hexec, hcall]

/-- A value is stored at one address and looked for at the next one. -/
theorem not_reads_own_writes {key : Key} (hkey : OneWord (cfg.cacheKey key)) {i : Nat} {x y : Addr}
    (hi : i + 1 < 2 ^ 32) (hx : cfg.addrs[i]? = some x) (hy : cfg.addrs[i + 1]? = some y)
    (hne : x ≠ y) : ¬ReadsOwnWrites cfg := by
  intro hreads
  have hset : Admissible cfg (.set key [] oneSecond) :=
    ⟨by simpa [OneWordKeys, Op.keys] using hkey, Nat.zero_le _, seconds_oneSecond _⟩
  have hget : Admissible cfg (.get key) := ⟨by simpa [OneWordKeys, Op.keys] using hkey, trivial⟩
  -- the counter gives the two addresses one after the other
  have hrr : (UInt32.ofNat i).toNat = i := UInt32.toNat_ofNat_of_lt' (show i < 2 ^ 32 by omega)
  have hnext : (UInt32.ofNat i + 1).toNat = i + 1 := by
    rw [UInt32.toNat_add, hrr]
    exact Nat.mod_eq_of_lt hi
  have hbx := (head_rotate hrr (List.getElem?_eq_some_iff.mp hx).1).trans hx
  have hby := (head_rotate hnext (List.getElem?_eq_some_iff.mp hy).1).trans hy
  let W₀ := World.init cfg (fun _ => sampleServer) (UInt32.ofNat i)
  obtain ⟨S, hsetCall, hservers, hS⟩ : ∃ S : State Server Unit,
      exec (wire memcached) cfg allDials 0 (.set key [] oneSecond) W₀.store =
        (some (.ok .done), S.map fun _ => Conn.idle true) ∧
      S.servers = update (fun _ => sampleServer) x _ ∧ S.rr = UInt32.ofNat i + 1 :=
    exec_at hset.1 rfl (S := State.init (fun _ => sampleServer) (UInt32.ofNat i)) hbx
      (set_opened sampleServer (cfg.cacheKey key) hset.2.1 hset.2.2)
  rw [← hS] at hby
  obtain ⟨T, hgetCall, -⟩ : ∃ T : State Server Unit,
      exec (wire memcached) cfg allDials 0 (.get key) (S.map fun _ => Conn.idle true) =
        (some (.ok (.value ((S.servers y).read (cfg.cacheKey key)))),
          T.map fun _ => Conn.idle true) ∧ _ :=
    exec_at hget.1 rfl hby (get_opened (S.servers y) (cfg.cacheKey key))
  have hmiss : (S.servers y).read (cfg.cacheKey key) = none := by
    rw [hservers, update_of_ne hne.symm]
    rfl
  have hrun : Transition.run (World.step cfg) W₀ [.call (.set key [] oneSecond) 0] =
      some ⟨S.map fun _ => Conn.idle true, update W₀.known key (.value [])⟩ := by
    rw [Transition.run_cons, World.step, hsetCall]
    rfl
  have halong : Transition.Along (World.step cfg) (NoExpiry cfg) W₀
      [.call (.set key [] oneSecond) 0] := ⟨hset, fun _ _ => trivial⟩
  have hagrees := hreads _ _ _ _ (fun _ => by decide) halong hrun (.get key) 0 hget
  rw [hgetCall, hmiss] at hagrees
  simp [Agrees, Knowledge.allowsGet] at hagrees

/-- The store reads its own writes if and only if the addresses that the counter can give are all
equal. -/
theorem reads_own_writes_iff (cfg : Config) (hne : cfg.addrs ≠ []) {key : Key}
    (hkey : OneWord (cfg.cacheKey key)) :
    ReadsOwnWrites cfg ↔ ∀ x ∈ cfg.addrs.take (2 ^ 32), ∀ y ∈ cfg.addrs.take (2 ^ 32), x = y := by
  constructor
  · intro hreads
    by_contra hdiffer
    rcases exists_ne_next hdiffer with ⟨i, x, y, hx, hy, hxy⟩
    have hi : i + 1 < 2 ^ 32 := by
      have hlt := (List.getElem?_eq_some_iff.mp hy).1
      rw [List.length_take] at hlt
      omega
    rw [List.getElem?_take_of_lt (by omega)] at hx hy
    exact not_reads_own_writes hkey hi hx hy hxy hreads
  · intro hequal
    have hlength : 0 < cfg.addrs.length := List.length_pos_iff.mpr hne
    have hgiven : ∀ rr : UInt32, ∃ x ∈ cfg.addrs.take (2 ^ 32),
        (cfg.addrs.rotate (rr.toNat % cfg.addrs.length)).head? = some x := by
      intro rr
      have hlt := Nat.mod_lt rr.toNat hlength
      have hsmall : rr.toNat % cfg.addrs.length < 2 ^ 32 :=
        lt_of_le_of_lt (Nat.mod_le _ _) rr.toNat_lt
      have hget := List.getElem?_eq_getElem hlt
      refine ⟨_, ?_, (List.head?_rotate hlt).trans hget⟩
      rw [← List.getElem?_take_of_lt hsmall] at hget
      exact List.mem_of_getElem? hget
    rcases hgiven 0 with ⟨a, hmem, _⟩
    refine reads_own_writes_of_oneAddress ?_ (List.mem_of_mem_take hmem)
    intro rr
    rcases hgiven rr with ⟨x, hx, hhead⟩
    rw [hhead, hequal x hx a hmem]

end TwoAddresses

/-- A store with one address. -/
theorem reads_own_writes_sampleConfig :
    OneWord (sampleConfig.cacheKey (ascii "k")) ∧ ReadsOwnWrites sampleConfig := by
  have hkey : OneWord (sampleConfig.cacheKey (ascii "k")) := by decide +kernel
  refine ⟨hkey, (reads_own_writes_iff sampleConfig (by decide) hkey).mpr ?_⟩
  simp [sampleConfig, Config.new]

/-- Two servers. -/
def twoAddresses : Config := Config.new [ascii "10.0.0.1:11211", ascii "10.0.0.2:11211"] 0 []

/-- A value that was stored is not found, and a lock that is held is granted again. -/
theorem two_addresses_lose_value :
    ∃ W, Transition.run (World.step twoAddresses)
        (World.init twoAddresses (fun _ => sampleServer) 0)
        [.call (.set (ascii "k") (ascii "v") 0) 0, .call (.get (ascii "x")) 0,
          .call (.lockAcquire (ascii "l") (ascii "owner A") 0) 0] = some W ∧
      W.known (ascii "k") = .value (ascii "v") ∧
      (exec (wire memcached) twoAddresses allDials 0 (.get (ascii "k")) W.store).1 =
        some (.ok (.value none)) ∧
      W.known (ascii "l") = .value (ascii "owner A") ∧
      (exec (wire memcached) twoAddresses allDials 0
        (.lockAcquire (ascii "l") (ascii "owner B") 0) W.store).1 = some (.ok (.flag true)) :=
  ⟨_, rfl, rfl, rfl, rfl, rfl⟩

end Memcached
end GoforjCache
