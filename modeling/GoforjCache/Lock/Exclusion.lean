import GoforjCache.Lock.Layers

/-!
# Locks - Owner-safe mutual exclusion over one memory store

Any family of Cache instances and LockHandles shares one memory store, each through
its own stack of layers and with its own owner token.  The clients run as in
`Lock.DirectLocks` and `Lock.Handle`; the store-level lock operations are
atomic and happen at some instant between the start and the end of the client's
backend call, each memo layer invalidates its table in a step of its own, and the
clock, go-cache's janitor and operations on other keys move at any time.

A ghost ledger records every acquisition the store granted, with the instant of
the grant, whether the client has returned it and whether it was released since.

Main results:

- Theorem `Inv.step`: an acquisition that is not released is backed by a record
  with the owner's token for its whole lifetime.
- Theorem `owner_safe_exclusion`: at most one party holds a key, and a release
  removes no record of another owner.
-/

namespace GoforjCache
namespace Lock

open Function Foundation Foundation.Transition
open Direct (Answer)

/-! ## Parties -/

/-- A party is a Cache instance or a LockHandle for one key. -/
inductive Party where
  | cache (cfg : Direct.Config)
  | handle (key : Key) (cfg : Handle.Config)

/-- The lock client a party runs. -/
def Party.client {τ : Type} [DecidableEq τ] : Party → LockClient τ
  | cache cfg => Direct.client cfg
  | handle key cfg => Handle.client key cfg

/-- A deployment: the parties `π`, the layers and the owner token of each, and
the default lifetime of the store.  Owner tokens are distinct. -/
structure System (π : Type) where
  party : π → Party
  stack : π → Stack
  token : π → Bytes
  distinct : Injective token
  defaultTTL : DefaultTTL

/-- One acquisition that the store granted. -/
structure Acquisition (π τ : Type) where
  party : π
  slot : τ
  key : Key
  start : Instant
  ttl : Duration
  returned : Bool
  released : Bool
deriving DecidableEq

/-- The lifetime of the acquisition has not elapsed. -/
def Acquisition.Alive {π τ : Type} (a : Acquisition π τ) (now : Instant) : Prop :=
  now ≤ a.start + a.ttl.toInt

/-- The acquisition returned `true`, was not released, and its lifetime has not
elapsed. -/
structure Acquisition.Active {π τ : Type} (a : Acquisition π τ) (now : Instant) : Prop where
  returned : a.returned = true
  unreleased : a.released = false
  alive : a.Alive now

/-- A backend call whose effect has happened: the answer on its way, and the memo
tables that have yet to forget the key. -/
structure Flight where
  key : Key
  answer : Answer
  forgets : List Nat

variable {π τ : Type} [DecidableEq π] [DecidableEq τ]

/-- The whole deployment at one moment. -/
structure World (τ : Type) [DecidableEq τ] (sys : System π) where
  clients : ∀ p, ((sys.party p).client : LockClient τ).State
  flights : π → τ → Option Flight
  items : Memory.Items
  memos : Nat → Memo.Table
  now : Instant
  ledger : List (Acquisition π τ)

/-- What the backend sees of a slot of a party. -/
def World.view {sys : System π} (w : World τ sys) (p : π) (t : τ) : View :=
  (sys.party p).client.view (w.clients p) t

/-- Replace what is in flight for one slot. -/
def World.setFlight {sys : System π} (w : World τ sys) (p : π) (t : τ) (f : Option Flight) :
    π → τ → Option Flight :=
  update w.flights p (update (w.flights p) t f)

/-- The client of slot `t` returns what it won. -/
def Acquisition.giveBack (p : π) (t : τ) (a : Acquisition π τ) : Acquisition π τ :=
  if a.party = p ∧ a.slot = t then { a with returned := true } else a

/-- Party `p` releases what it returned on `key`. -/
def Acquisition.release (p : π) (key : Key) (a : Acquisition π τ) : Acquisition π τ :=
  if a.party = p ∧ a.key = key ∧ a.returned = true then { a with released := true } else a

/-- The steps of a deployment. -/
inductive Step (τ : Type) [DecidableEq τ] (sys : System π) where
  /-- A local step of a party. -/
  | act (p : π) (e : ((sys.party p).client : LockClient τ).Event)
  /-- The atomic lock operation of the memory store, under its mutex. -/
  | effect (p : π) (t : τ)
  /-- The innermost memo layer that has not done so forgets the key. -/
  | forget (p : π) (t : τ)
  /-- The backend call returns to the client. -/
  | deliver (p : π) (t : τ)
  /-- An operation on keys outside the lock namespace, by anybody. -/
  | other (op : Op)
  /-- The janitor of go-cache collects expired entries. -/
  | janitor
  /-- The clock moves forward. -/
  | tick (d : Nat)

/-- The slot in whose call a step is taken. -/
def Step.actor {sys : System π} : Step τ sys → Option (π × τ)
  | act p e => some (p, (sys.party p).client.slot e)
  | effect p t => some (p, t)
  | forget p t => some (p, t)
  | deliver p t => some (p, t)
  | _ => none

/-- Replace the state of one party. -/
def World.moveClient {sys : System π} (w : World τ sys) (p : π)
    (s : ((sys.party p).client : LockClient τ).State) : World τ sys :=
  { w with clients := update w.clients p s }

/-- The move with which a call hands its acquisition to the caller. -/
def View.returns : View → View → Bool
  | won _, quiet => true
  | _, _ => false

/-- A local step of a party.  A slot that leaves `won` has returned the
acquisition to its caller. -/
def World.act {sys : System π} (w : World τ sys) (p : π)
    (e : ((sys.party p).client : LockClient τ).Event) : Option (World τ sys) :=
  match (sys.party p).client.step (w.clients p) e with
  | none => none
  | some s =>
    let t := (sys.party p).client.slot e
    let w' := w.moveClient p s
    if (w.view p t).returns (w'.view p t) then
      some { w' with ledger := w.ledger.map (Acquisition.giveBack p t) }
    else some w'

/-- The store-level lock operation of a slot that is inside the backend. -/
def World.effect {sys : System π} (w : World τ sys) (p : π) (t : τ) : Option (World τ sys) :=
  match w.flights p t, w.view p t with
  | none, .attempting key ttl =>
    let o := (sys.stack p).lockAcquire sys.defaultTTL w.items w.now (lockKey key)
      (sys.token p) ttl
    some
      { w with
        items := o.items
        flights := w.setFlight p t (some ⟨lockKey key, o.answer, o.forgets⟩)
        ledger := if o.answer.succeeded then
            w.ledger ++ [⟨p, t, key, w.now, ttl, false, false⟩]
          else w.ledger }
  | none, .unlocking key =>
    let o := (sys.stack p).lockRelease w.items w.now (lockKey key) (sys.token p)
    some
      { w with
        items := o.items
        flights := w.setFlight p t (some ⟨lockKey key, o.answer, o.forgets⟩)
        ledger := if o.answer.err = none then w.ledger.map (Acquisition.release p key)
          else w.ledger }
  | _, _ => none

/-- One memo layer on the way back runs its invalidation. -/
def World.forget {sys : System π} (w : World τ sys) (p : π) (t : τ) : Option (World τ sys) :=
  match w.flights p t with
  | some ⟨key, answer, table :: rest⟩ =>
    some
      { w with
        memos := update w.memos table ((w.memos table).forget key)
        flights := w.setFlight p t (some ⟨key, answer, rest⟩) }
  | _ => none

/-- The answer reaches the client when no layer has work left. -/
def World.deliver {sys : System π} (w : World τ sys) (p : π) (t : τ) : Option (World τ sys) :=
  match w.flights p t with
  | some ⟨_, answer, []⟩ =>
    match (sys.party p).client.answer (w.clients p) t answer with
    | none => none
    | some s =>
      some { w.moveClient p s with flights := w.setFlight p t none }
  | _ => none

/-- One step of the deployment. -/
def World.step (sys : System π) (w : World τ sys) : Step τ sys → Option (World τ sys)
  | .act p e => w.act p e
  | .effect p t => w.effect p t
  | .forget p t => w.forget p t
  | .deliver p t => w.deliver p t
  | .other op =>
    if op.avoidsLocks then
      some { w with items := (Memory.exec sys.defaultTTL w.now w.items op).1 }
    else none
  | .janitor => some { w with items := w.items.deleteExpired w.now }
  | .tick d => some { w with now := w.now + d }

/-- New parties meet a store with any content at any instant. -/
structure World.Initial {sys : System π} (w : World τ sys) : Prop where
  clients : ∀ p, w.clients p = (sys.party p).client.initial
  flights : ∀ p t, w.flights p t = none
  ledger : w.ledger = []

/-! ## Slots -/

variable {sys : System π} {w w' : World τ sys} {p : π} {t : τ}

@[simp]
theorem World.setFlight_self (w : World τ sys) (p : π) (t : τ) (f : Option Flight) :
    w.setFlight p t f p t = f := by
  simp [World.setFlight]

variable {u : τ} {key : Key} {f : Flight}

/-- Other slots keep what they have in flight. -/
theorem World.setFlight_of_ne {q : π} (h : ¬(q = p ∧ u = t)) (f : Option Flight) :
    w.setFlight p t f q u = w.flights q u := by
  unfold World.setFlight
  by_cases hq : q = p
  · subst hq
    rw [update_self, update_of_ne fun hu => h ⟨rfl, hu⟩]
  · rw [update_of_ne hq]

/-- The store granted `key` to the slot, and the call has not returned it. -/
def World.Granted (w : World τ sys) (p : π) (t : τ) (key : Key) : Prop :=
  (∃ ttl f, w.view p t = .attempting key ttl ∧ w.flights p t = some f ∧
    f.answer.succeeded = true) ∨ w.view p t = .won key

omit [DecidableEq π] in
theorem World.Granted.view_key (h : w.Granted p t key) : (w.view p t).key = some key := by
  rcases h with ⟨ttl, f, hview, -, -⟩ | hview <;> rw [hview] <;> rfl

omit [DecidableEq π] in
/-- Grants depend on the view and the flight of the slot only. -/
theorem World.granted_congr (hview : w'.view p t = w.view p t)
    (hflight : w'.flights p t = w.flights p t) : w'.Granted p t key ↔ w.Granted p t key := by
  unfold World.Granted
  rw [hview, hflight]

/-- Nothing but slot `t` of party `p` moved. -/
def World.Frame (w w' : World τ sys) (p : π) (t : τ) : Prop :=
  ∀ q u, ¬(q = p ∧ u = t) → w'.view q u = w.view q u ∧ w'.flights q u = w.flights q u

omit [DecidableEq π] in
/-- Views are the clients' own. -/
theorem World.view_congr (hclients : w'.clients = w.clients) (q : π) (u : τ) :
    w'.view q u = w.view q u := by
  rw [World.view, World.view, hclients]

/-- A step of the backend for one slot moves nothing but its flight. -/
theorem World.frame_of_setFlight {f : Option Flight} (hclients : w'.clients = w.clients)
    (hflights : w'.flights = w.setFlight p t f) : w.Frame w' p t := by
  intro q u hne
  exact ⟨World.view_congr hclients q u, by rw [hflights, World.setFlight_of_ne hne]⟩

/-! ## The invariant -/

/-- A slot with a flight is inside the backend, and an attempt asks for a positive
lifetime. -/
structure World.Sound (w : World τ sys) (p : π) (t : τ) : Prop where
  busy : ∀ f, w.flights p t = some f →
    (∃ key ttl, w.view p t = .attempting key ttl) ∨ ∃ key, w.view p t = .unlocking key
  positive : ∀ key ttl, w.view p t = .attempting key ttl → 0 < ttl

section

omit [DecidableEq π]

/-- Soundness depends on the view and the flight of the slot only. -/
theorem World.Sound.congr (h : w.Sound p t) (hview : w'.view p t = w.view p t)
    (hflight : w'.flights p t = w.flights p t) : w'.Sound p t := by
  refine ⟨?_, ?_⟩
  · rw [hview, hflight]
    exact h.busy
  · rw [hview]
    exact h.positive

/-- What the ledger promises about one acquisition: while it is not released, a
record with the owner's token stands for its whole lifetime, and until it is
returned the grant is still with its slot. -/
structure Acquisition.Backed (w : World τ sys) (a : Acquisition π τ) : Prop where
  pos : 0 < a.ttl
  started : a.start ≤ w.now
  record : a.released = false → a.Alive w.now →
    w.items (lockKey a.key) = some ⟨sys.token a.party, ExpiringMap.deadline a.start a.ttl⟩
  pending : a.returned = false → w.Granted a.party a.slot a.key

/-- The invariant of a deployment. -/
structure World.Inv (w : World τ sys) : Prop where
  clients : ∀ p, (sys.party p).client.Inv (w.clients p)
  sound : ∀ p t, w.Sound p t
  backed : ∀ a ∈ w.ledger, a.Backed w
  recorded : ∀ p t key, w.Granted p t key →
    ∃ a ∈ w.ledger, a.party = p ∧ a.slot = t ∧ a.key = key ∧ a.returned = false

/-- New parties satisfy the invariant. -/
theorem World.Initial.inv (h : w.Initial) : w.Inv where
  clients p := by
    rw [h.clients p]
    exact LockClient.inv_initial _
  sound p t := by
    refine ⟨by simp [h.flights], ?_⟩
    simp [World.view, h.clients, LockClient.quiet_initial]
  backed a ha := by simp [h.ledger] at ha
  recorded p t key hgrant := by
    rcases hgrant with ⟨ttl, f, -, hf, -⟩ | hview
    · simp [h.flights] at hf
    · rw [World.view, h.clients, LockClient.quiet_initial] at hview
      cases hview

/-- Two slots of one party that are busy with one key are the same. -/
theorem World.Inv.exclusive (hw : w.Inv) (ht : (w.view p t).key = some key)
    (hu : (w.view p u).key = some key) : t = u :=
  LockClient.exclusive _ (hw.clients p) ht hu

/-- A live acquisition that is not released is what a read of its key sees. -/
theorem Acquisition.Backed.get_eq {a : Acquisition π τ} (ha : a.Backed w)
    (hrel : a.released = false) (halive : a.Alive w.now) :
    w.items.get w.now (lockKey a.key) = some (sys.token a.party) :=
  ExpiringMap.get_eq_some_of_live (ha.record hrel halive)
    (ExpiringMap.live_within ha.pos ha.started halive)

/-! ## Steps that leave the ledger alone -/

/-- A slot without a backend call has nothing in flight. -/
theorem World.Inv.flight_eq_none (hw : w.Inv)
    (hview : (∀ key ttl, w.view p t ≠ .attempting key ttl) ∧ ∀ key, w.view p t ≠ .unlocking key) :
    w.flights p t = none := by
  cases hf : w.flights p t with
  | none => rfl
  | some f =>
    rcases (hw.sound p t).busy f hf with ⟨key, ttl, h⟩ | ⟨key, h⟩
    · exact absurd h (hview.1 key ttl)
    · exact absurd h (hview.2 key)

/-- A step that moves no grant, changes no ledger entry and removes no live lock
record keeps the invariant. -/
theorem World.Inv.of_granted_iff (hw : w.Inv)
    (hclients : ∀ p, (sys.party p).client.Inv (w'.clients p)) (hsound : ∀ p t, w'.Sound p t)
    (hgranted : ∀ p t key, w'.Granted p t key ↔ w.Granted p t key) (hledger : w'.ledger = w.ledger)
    (hnow : w.now ≤ w'.now) (hitems : ∀ key item, w.items (lockKey key) = some item →
      ExpiringMap.expired w.now item.expiration = false →
      w'.items (lockKey key) = some item) : w'.Inv where
  clients := hclients
  sound := hsound
  backed a ha := by
    rw [hledger] at ha
    have hb := hw.backed a ha
    refine ⟨hb.pos, hb.started.trans hnow, ?_, ?_⟩
    · intro hrel halive
      have halive' : a.Alive w.now := hnow.trans halive
      exact hitems _ _ (hb.record hrel halive')
        (ExpiringMap.live_within hb.pos hb.started halive')
    · intro hret
      exact (hgranted _ _ _).mpr (hb.pending hret)
  recorded p t key h := by
    rw [hledger]
    exact hw.recorded p t key ((hgranted p t key).mp h)

/-- The clock, the janitor and operations on other keys keep the invariant. -/
theorem World.Inv.environment (hw : w.Inv) (hclients : w'.clients = w.clients)
    (hflights : w'.flights = w.flights) (hledger : w'.ledger = w.ledger) (hnow : w.now ≤ w'.now)
    (hitems : ∀ key item, w.items (lockKey key) = some item →
      ExpiringMap.expired w.now item.expiration = false →
      w'.items (lockKey key) = some item) : w'.Inv := by
  have hview := World.view_congr hclients
  refine hw.of_granted_iff ?_ ?_ ?_ hledger hnow hitems
  · intro p
    rw [hclients]
    exact hw.clients p
  · intro p t
    exact (hw.sound p t).congr (hview p t) (by rw [hflights])
  · intro p t key
    exact World.granted_congr (hview p t) (by rw [hflights])

end

/-- Slots that did not move stay sound. -/
theorem World.Inv.sound_of_frame (hw : w.Inv) (hframe : w.Frame w' p t)
    (hsound : w'.Sound p t) (q : π) (u : τ) : w'.Sound q u := by
  by_cases h : q = p ∧ u = t
  · obtain ⟨rfl, rfl⟩ := h
    exact hsound
  · exact (hw.sound q u).congr (hframe q u h).1 (hframe q u h).2

/-- A step of one slot that keeps items, clock and ledger keeps the invariant if it
moves no grant of its own. -/
theorem World.Inv.of_frame (hw : w.Inv) (hclients : ∀ p, (sys.party p).client.Inv (w'.clients p))
    (hframe : w.Frame w' p t) (hsound : w'.Sound p t)
    (hgranted : ∀ key, w'.Granted p t key ↔ w.Granted p t key) (hledger : w'.ledger = w.ledger)
    (hnow : w'.now = w.now) (hitems : w'.items = w.items) : w'.Inv := by
  refine hw.of_granted_iff hclients ?_ ?_ hledger hnow.ge ?_
  · exact hw.sound_of_frame hframe hsound
  · intro q u key
    by_cases h : q = p ∧ u = t
    · obtain ⟨rfl, rfl⟩ := h
      exact hgranted key
    · exact World.granted_congr (hframe q u h).1 (hframe q u h).2
  · intro key item hitem _
    rw [hitems]
    exact hitem

/-- A step of the backend for one slot that keeps items, clock and ledger keeps the
invariant if its answer grants no more and no less than the one in flight before. -/
theorem World.Inv.fly (hw : w.Inv)
    (hbusy : (∃ key ttl, w.view p t = .attempting key ttl) ∨ ∃ key, w.view p t = .unlocking key)
    (hanswer : f.answer.succeeded = true ↔
      ∃ g, w.flights p t = some g ∧ g.answer.succeeded = true) (hclients : w'.clients = w.clients)
    (hflights : w'.flights = w.setFlight p t (some f)) (hledger : w'.ledger = w.ledger)
    (hnow : w'.now = w.now) (hitems : w'.items = w.items) : w'.Inv := by
  have hview : w'.view p t = w.view p t := World.view_congr hclients p t
  have hflight : w'.flights p t = some f := by rw [hflights, World.setFlight_self]
  refine hw.of_frame (hclients ▸ hw.clients) (World.frame_of_setFlight hclients hflights)
    ⟨?_, ?_⟩ ?_ hledger hnow hitems
  · intro _ _
    rw [hview]
    exact hbusy
  · rw [hview]
    exact (hw.sound p t).positive
  · intro key
    refine or_congr (exists_congr fun ttl => ?_) (by rw [hview])
    simp only [hview, hflight, Option.some.injEq, exists_and_left, exists_eq_left', hanswer]

/-! ## Views after a client moved -/

theorem World.view_moveClient (w : World τ sys) (p : π)
    (s : ((sys.party p).client : LockClient τ).State) (t : τ) :
    (w.moveClient p s).view p t = (sys.party p).client.view s t := by
  simp [World.view, World.moveClient]

/-- Other slots look the same when the party's step left their views alone. -/
theorem World.view_moveClient_of_ne {s : ((sys.party p).client : LockClient τ).State}
    (hs : ∀ u, u ≠ t → (sys.party p).client.view s u = w.view p u) {q : π} (h : ¬(q = p ∧ u = t)) :
    (w.moveClient p s).view q u = w.view q u := by
  by_cases hq : q = p
  · subst hq
    rw [World.view_moveClient]
    exact hs u fun hu => h ⟨rfl, hu⟩
  · simp [World.view, World.moveClient, update_of_ne hq]

/-- The invariants of the clients survive a step of one of them. -/
theorem World.Inv.clients_update (hw : w.Inv)
    {s : ((sys.party p).client : LockClient τ).State} (hs : (sys.party p).client.Inv s) (q : π) :
    (sys.party q).client.Inv (update w.clients p s q) := by
  by_cases hq : q = p
  · subst hq
    rw [update_self]
    exact hs
  · rw [update_of_ne hq]
    exact hw.clients q

/-! ## Steps of the parties -/

/-- A call that returns its acquisition keeps the invariant: the entries of the slot
count as returned, and no grant is left with it. -/
theorem World.Inv.giveBack (hw : w.Inv) (hclients : ∀ p, (sys.party p).client.Inv (w'.clients p))
    (hframe : w.Frame w' p t) (hflight : w'.flights p t = none) (hview : w'.view p t = .quiet)
    (hledger : w'.ledger = w.ledger.map (Acquisition.giveBack p t)) (hnow : w'.now = w.now)
    (hitems : w'.items = w.items) : w'.Inv where
  clients := hclients
  sound := hw.sound_of_frame hframe ⟨by simp [hflight], by simp [hview]⟩
  backed a' ha' := by
    rw [hledger, List.mem_map] at ha'
    obtain ⟨a, ha, rfl⟩ := ha'
    have hb := hw.backed a ha
    unfold Acquisition.giveBack
    split
    · exact ⟨hb.pos, hnow ▸ hb.started, by rw [hitems, hnow]; exact hb.record, by simp⟩
    · rename_i hne
      refine ⟨hb.pos, hnow ▸ hb.started, by rw [hitems, hnow]; exact hb.record, ?_⟩
      intro hret
      have hfr := hframe _ _ hne
      exact (World.granted_congr hfr.1 hfr.2).mpr (hb.pending hret)
  recorded q u key hgrant := by
    by_cases h : q = p ∧ u = t
    · obtain ⟨rfl, rfl⟩ := h
      rcases hgrant with ⟨ttl, f, -, hf, -⟩ | hwon
      · simp [hflight] at hf
      · simp [hview] at hwon
    · have hfr := hframe q u h
      obtain ⟨a, ha, rfl, rfl, hkey, hret⟩ :=
        hw.recorded q u key ((World.granted_congr hfr.1 hfr.2).mp hgrant)
      rw [hledger]
      refine ⟨a, ?_, rfl, rfl, hkey, hret⟩
      exact List.mem_map.mpr ⟨a, ha, if_neg h⟩

/-- A local step of a party keeps the invariant. -/
theorem World.Inv.act (hw : w.Inv) {e : ((sys.party p).client : LockClient τ).Event}
    (h : w.act p e = some w') : w'.Inv := by
  unfold World.act at h
  split at h
  · contradiction
  · rename_i s hs
    dsimp only at h
    generalize ht : (sys.party p).client.slot e = t at h
    have hclients := hw.clients_update ((sys.party p).client.inv_step (hw.clients p) hs)
    have hframe : w.Frame (w.moveClient p s) p t := by
      intro q u hne
      refine ⟨World.view_moveClient_of_ne ?_ hne, rfl⟩
      intro u hu
      exact (sys.party p).client.step_frame hs (ht ▸ hu)
    have hmove : (w.view p t).Local ((w.moveClient p s).view p t) := by
      rw [World.view_moveClient, ← ht]
      exact (sys.party p).client.step_view hs
    -- only a slot inside the backend has something in flight, and it makes no local move
    generalize hv : w.view p t = v at h hmove
    generalize hv' : (w.moveClient p s).view p t = v' at h hmove
    cases hmove with
    | stay v =>
      have hret : v.returns v = false := by cases v <;> rfl
      simp only [hret, Bool.false_eq_true, if_false, Option.some.injEq] at h
      subst h
      refine hw.of_frame hclients hframe ?_ ?_ rfl rfl rfl
      · exact (hw.sound p t).congr (hv'.trans hv.symm) rfl
      · intro key
        exact World.granted_congr (hv'.trans hv.symm) rfl
    | attempt key ttl hpos =>
      simp only [View.returns, Bool.false_eq_true, if_false, Option.some.injEq] at h
      subst h
      have hnone : (w.moveClient p s).flights p t = none := hw.flight_eq_none (by simp [hv])
      refine hw.of_frame hclients hframe ⟨by simp [hnone], ?_⟩ ?_ rfl rfl rfl
      · rintro k ttl' hk
        rw [hv'] at hk
        cases hk
        exact hpos
      · intro k
        simp [World.Granted, hv', hv, hnone]
    | unlock key =>
      simp only [View.returns, Bool.false_eq_true, if_false, Option.some.injEq] at h
      subst h
      have hnone : (w.moveClient p s).flights p t = none := hw.flight_eq_none (by simp [hv])
      refine hw.of_frame hclients hframe ⟨by simp [hnone], by simp [hv']⟩ ?_ rfl rfl rfl
      intro k
      simp [World.Granted, hv', hv, hnone]
    | grant key =>
      simp only [View.returns, if_true, Option.some.injEq] at h
      subst h
      have hnone : w.flights p t = none := hw.flight_eq_none (by simp [hv])
      exact hw.giveBack hclients hframe hnone hv' rfl rfl rfl

/-- A memo layer that invalidates its table keeps the invariant. -/
theorem World.Inv.forget (hw : w.Inv) (h : w.forget p t = some w') : w'.Inv := by
  unfold World.forget at h
  split at h
  · rename_i key answer table rest hf
    cases h
    exact hw.fly ((hw.sound p t).busy _ hf) (by simp [hf]) rfl rfl rfl rfl rfl
  · contradiction

/-- A backend answer that reaches its client keeps the invariant. -/
theorem World.Inv.deliver (hw : w.Inv) (h : w.deliver p t = some w') : w'.Inv := by
  unfold World.deliver at h
  split at h
  · rename_i key answer hf
    split at h
    · contradiction
    · rename_i s hs
      cases h
      have hclients := hw.clients_update ((sys.party p).client.inv_answer (hw.clients p) hs)
      have hview : (sys.party p).client.view s t = (w.view p t).answered answer :=
        (sys.party p).client.answer_view hs
      have hself := World.view_moveClient w p s t
      rw [hview] at hself
      refine hw.of_frame hclients (p := p) (t := t) ?_ ⟨by simp, ?_⟩ ?_ rfl rfl rfl
      · intro q u hne
        refine ⟨World.view_moveClient_of_ne ?_ hne, World.setFlight_of_ne hne _⟩
        intro u hu
        exact (sys.party p).client.answer_frame hs hu
      · intro k ttl hk
        exact absurd (hself.symm.trans hk) (View.answered_ne_attempting _ _ k ttl)
      · intro k
        have hafter :
            World.Granted { w.moveClient p s with flights := w.setFlight p t none } p t k ↔
              (w.view p t).answered answer = .won k := by
          rw [← hself]
          simp [World.Granted, World.view]
        rw [hafter, World.Granted]
        rcases (hw.sound p t).busy _ hf with ⟨k', ttl, hv⟩ | ⟨k', hv⟩
        · cases hok : answer.succeeded <;> simp [hv, hf, hok, View.answered]
        · simp [hv, View.answered]
  · contradiction

/-! ## Store-level lock operations -/

/-- The grant of a key keeps the invariant: no other acquisition of the key can be
live, because its record would have refused the grant. -/
theorem World.Inv.grant (hw : w.Inv) {ttl : Duration} (hview : w.view p t = .attempting key ttl)
    (hnone : w.flights p t = none) (hok : f.answer.succeeded = true)
    (hfree : w.items.get w.now (lockKey key) = none) (hclients : w'.clients = w.clients)
    (hnow : w'.now = w.now) (hflights : w'.flights = w.setFlight p t (some f))
    (hitems : w'.items = update w.items (lockKey key)
      (some ⟨sys.token p, ExpiringMap.deadline w.now ttl⟩))
    (hledger : w'.ledger = w.ledger ++ [⟨p, t, key, w.now, ttl, false, false⟩]) : w'.Inv := by
  have hviews := World.view_congr hclients
  have hframe : w.Frame w' p t := World.frame_of_setFlight hclients hflights
  have hcongr : ∀ q u k, ¬(q = p ∧ u = t) → (w'.Granted q u k ↔ w.Granted q u k) := by
    intro q u k hne
    exact World.granted_congr (hframe q u hne).1 (hframe q u hne).2
  have hown : w'.Granted p t key :=
    Or.inl ⟨ttl, f, (hviews p t).trans hview, by rw [hflights, World.setFlight_self], hok⟩
  -- the slot had no grant before
  have hfresh : ∀ k, ¬w.Granted p t k := by
    rintro k (⟨ttl', f', -, hf', -⟩ | hwon)
    · simp [hnone] at hf'
    · simp [hview] at hwon
  refine ⟨hclients ▸ hw.clients, ?_, ?_, ?_⟩
  · refine hw.sound_of_frame hframe ⟨fun _ _ => ?_, ?_⟩
    · rw [hviews]
      exact Or.inl ⟨key, ttl, hview⟩
    · rw [hviews]
      exact (hw.sound p t).positive
  · intro a ha
    rw [hledger, List.mem_append, List.mem_singleton] at ha
    rcases ha with ha | rfl
    · have hb := hw.backed a ha
      refine ⟨hb.pos, hnow ▸ hb.started, ?_, ?_⟩
      · intro hrel halive
        rw [hnow] at halive
        have hne : lockKey a.key ≠ lockKey key := by
          intro heq
          have hget := hb.get_eq hrel halive
          rw [heq, hfree] at hget
          cases hget
        rw [hitems, update_of_ne hne]
        exact hb.record hrel halive
      · intro hret
        have hgrant := hb.pending hret
        refine (hcongr _ _ _ ?_).mpr hgrant
        rintro ⟨hp, ht⟩
        rw [hp, ht] at hgrant
        exact hfresh _ hgrant
    · refine ⟨(hw.sound p t).positive key ttl hview, hnow.ge, ?_, fun _ => hown⟩
      intro _ _
      rw [hitems]
      exact update_self _ _ _
  · intro q u k hgrant
    rw [hledger]
    by_cases h : q = p ∧ u = t
    · obtain ⟨rfl, rfl⟩ := h
      have hkey : k = key := by
        have hk := hgrant.view_key
        rw [hown.view_key] at hk
        exact (Option.some.inj hk).symm
      subst hkey
      exact ⟨⟨q, u, k, w.now, ttl, false, false⟩, by simp, rfl, rfl, rfl, rfl⟩
    · obtain ⟨a, ha, hrest⟩ := hw.recorded q u k ((hcongr q u k h).mp hgrant)
      exact ⟨a, List.mem_append_left _ ha, hrest⟩

/-- A release keeps the invariant: it removes the record only if it carries the
party's token, and then every acquisition it backed counts as released. -/
theorem World.Inv.release (hw : w.Inv) (hview : w.view p t = .unlocking key)
    (hclients : w'.clients = w.clients) (hnow : w'.now = w.now)
    (hflights : w'.flights = w.setFlight p t (some f))
    (hitems : w'.items = (Memory.lockRelease w.items w.now (lockKey key) (sys.token p)).1)
    (hledger : w'.ledger = w.ledger.map (Acquisition.release p key)) : w'.Inv := by
  have hviews := World.view_congr hclients
  have hframe : w.Frame w' p t := World.frame_of_setFlight hclients hflights
  have hcongr : ∀ q u k, w'.Granted q u k ↔ w.Granted q u k := by
    intro q u k
    by_cases h : q = p ∧ u = t
    · obtain ⟨rfl, rfl⟩ := h
      simp [World.Granted, hviews, hview]
    · exact World.granted_congr (hframe q u h).1 (hframe q u h).2
  refine ⟨hclients ▸ hw.clients, ?_, ?_, ?_⟩
  · refine hw.sound_of_frame hframe ⟨fun _ _ => ?_, ?_⟩
    · rw [hviews]
      exact Or.inr ⟨key, hview⟩
    · rw [hviews]
      exact (hw.sound p t).positive
  · intro a' ha'
    rw [hledger, List.mem_map] at ha'
    obtain ⟨a, ha, rfl⟩ := ha'
    have hb := hw.backed a ha
    unfold Acquisition.release
    split
    · rename_i hmine
      exact ⟨hb.pos, hnow ▸ hb.started, by simp, by simp [hmine.2.2]⟩
    · rename_i hother
      refine ⟨hb.pos, hnow ▸ hb.started, ?_, fun hret => (hcongr _ _ _).mpr (hb.pending hret)⟩
      intro hrel halive
      rw [hnow] at halive
      by_contra hgone
      have hrec := hb.record hrel halive
      rw [hitems, ← hrec] at hgone
      obtain ⟨hkey, -, item, hitem, htoken⟩ := Memory.lockRelease_changes hgone
      rw [hrec] at hitem
      cases hitem
      have hparty := sys.distinct htoken
      have hkey' := lockKey_injective hkey
      -- an acquisition that is not returned keeps its slot busy with the key
      cases hret : a.returned with
      | true => exact hother ⟨hparty, hkey', hret⟩
      | false =>
        have hgrant := hb.pending hret
        rw [hparty, hkey'] at hgrant
        have hslot := hw.exclusive hgrant.view_key (by rw [hview]; rfl : (w.view p t).key = _)
        rw [hslot] at hgrant
        rcases hgrant with ⟨ttl, g, hv, -, -⟩ | hv <;> simp [hview] at hv
  · intro q u k hgrant
    obtain ⟨a, ha, rfl, rfl, hkey, hret⟩ := hw.recorded q u k ((hcongr q u k).mp hgrant)
    rw [hledger]
    refine ⟨a, List.mem_map.mpr ⟨a, ha, if_neg ?_⟩, rfl, rfl, hkey, hret⟩
    simp [hret]

/-- A store-level lock operation keeps the invariant. -/
theorem World.Inv.effect (hw : w.Inv) (h : w.effect p t = some w') : w'.Inv := by
  unfold World.effect at h
  split at h
  · rename_i key ttl hnone hview
    dsimp only at h
    rcases (sys.stack p).lockAcquire_spec sys.defaultTTL w.items w.now (lockKey key) (sys.token p)
      ((hw.sound p t).positive key ttl hview) with ⟨hok, hfree, hitems⟩ | ⟨hno, hitems⟩
    · rw [if_pos hok] at h
      cases h
      exact hw.grant hview hnone hok hfree rfl rfl rfl hitems rfl
    · rw [if_neg (by simp [hno])] at h
      cases h
      exact hw.fly (Or.inl ⟨key, ttl, hview⟩) (by simp [hnone, hno]) rfl rfl rfl rfl hitems
  · rename_i key hnone hview
    dsimp only at h
    rcases (sys.stack p).lockRelease_spec w.items w.now (lockKey key) (sys.token p) with
      ⟨hok, hitems⟩ | ⟨hno, hitems⟩
    · rw [if_pos hok] at h
      cases h
      exact hw.release hview rfl rfl rfl hitems rfl
    · rw [if_neg hno] at h
      cases h
      exact hw.fly (Or.inr ⟨key, hview⟩) (by simp [hnone, Answer.succeeded, hno])
        rfl rfl rfl rfl hitems
  · contradiction

/-- Every step of a deployment keeps the invariant. -/
theorem World.Inv.step (hw : w.Inv) {e : Step τ sys} (h : w.step sys e = some w') : w'.Inv := by
  cases e with
  | act p e => exact hw.act h
  | effect p t => exact hw.effect h
  | forget p t => exact hw.forget h
  | deliver p t => exact hw.deliver h
  | other op =>
    obtain ⟨havoid, h⟩ := Option.ite_none_right_eq_some.mp h
    cases h
    refine hw.environment rfl rfl rfl le_rfl ?_
    intro key item hitem _
    rw [← hitem]
    exact Memory.exec_frame (Op.touches_lockKey havoid key) _ _ _
  | janitor =>
    cases h
    refine hw.environment rfl rfl rfl le_rfl ?_
    intro key item hitem hlive
    exact ExpiringMap.deleteExpired_of_live hitem hlive
  | tick d =>
    cases h
    refine hw.environment rfl rfl rfl ?_ fun key item hitem _ => hitem
    exact Int.le_add_of_nonneg_right (Int.natCast_nonneg d)

/-! ## Mutual exclusion -/

omit [DecidableEq π] in
/-- Two acquisitions of one key that are alive and not released have one owner. -/
theorem World.Inv.same_party (hw : w.Inv) {a b : Acquisition π τ} (ha : a ∈ w.ledger)
    (hb : b ∈ w.ledger) (haa : a.Active w.now) (hba : b.Active w.now) (hkey : a.key = b.key) :
    a.party = b.party := by
  have hra := (hw.backed a ha).record haa.unreleased haa.alive
  have hrb := (hw.backed b hb).record hba.unreleased hba.alive
  rw [hkey, hrb, Option.some.injEq, Item.mk.injEq] at hra
  exact sys.distinct hra.1.symm

/-- A step taken in a call that is not attempting an acquisition keeps every record
of another owner. -/
theorem World.foreign_record_kept {e : Step τ sys} (h : w.step sys e = some w')
    (hactor : e.actor = some (p, t)) (hview : ∀ key ttl, w.view p t ≠ .attempting key ttl)
    {item : Item Bytes} (hitem : w.items key = some item) (hother : item.value ≠ sys.token p) :
    w'.items key = some item := by
  cases e with
  | act q e =>
    simp only [World.step, World.act] at h
    split at h
    · contradiction
    · split at h <;> cases h <;> exact hitem
  | effect q u =>
    obtain ⟨rfl, rfl⟩ : q = p ∧ u = t := by simpa [Step.actor] using hactor
    simp only [World.step, World.effect] at h
    split at h
    · rename_i k ttl _ hv
      exact absurd hv (hview k ttl)
    · rename_i k _ hv
      cases h
      by_contra hgone
      rcases (sys.stack q).lockRelease_spec w.items w.now (lockKey k) (sys.token q) with
        ⟨-, hitems⟩ | ⟨-, hitems⟩
      · dsimp only at hgone
        rw [hitems, ← hitem] at hgone
        obtain ⟨-, -, item', hitem', htoken⟩ := Memory.lockRelease_changes hgone
        rw [hitem] at hitem'
        cases hitem'
        exact hother htoken
      · dsimp only at hgone
        rw [hitems] at hgone
        exact hgone hitem
    · contradiction
  | forget q u =>
    simp only [World.step, World.forget] at h
    split at h
    · cases h
      exact hitem
    · contradiction
  | deliver q u =>
    simp only [World.step, World.deliver] at h
    split at h
    · split at h
      · contradiction
      · cases h
        exact hitem
    · contradiction
  | other op => cases hactor
  | janitor => cases hactor
  | tick d => cases hactor

/--
Owner-safe mutual exclusion, in every state a deployment of Cache instances and
LockHandles with distinct tokens can reach over one memory store:

- every acquisition the store granted and a call is about to return is in the
  ledger;
- of two acquisitions of one key that returned `true`, were not released and
  whose lifetimes have not elapsed, both belong to one party;
- no step of an `Unlock` or `Release` call, and none of any other call that
  is not inside an acquisition, removes or changes a record with a different owner's
  token.
-/
theorem owner_safe_exclusion (h : Reachable World.Initial (World.step sys) w) :
    (∀ p t key, w.view p t = .won key →
      ∃ a ∈ w.ledger, a.party = p ∧ a.slot = t ∧ a.key = key ∧ a.returned = false) ∧
    (∀ a ∈ w.ledger, ∀ b ∈ w.ledger, a.Active w.now → b.Active w.now → a.key = b.key →
      a.party = b.party) ∧
    (∀ e w' p t, w.step sys e = some w' → e.actor = some (p, t) →
      (∀ key ttl, w.view p t ≠ .attempting key ttl) →
      ∀ key item, w.items key = some item → item.value ≠ sys.token p →
        w'.items key = some item) := by
  have hw : w.Inv :=
    reachable_invariant (fun w hw => hw.inv) (fun w e w' hw hstep => hw.step hstep) h
  refine ⟨?_, ?_, ?_⟩
  · intro p t key hwon
    exact hw.recorded p t key (Or.inr hwon)
  · intro a ha b hb haa hba hkey
    exact hw.same_party ha hb haa hba hkey
  · intro e w' p t hstep hactor hview key item hitem hother
    exact World.foreign_record_kept hstep hactor hview hitem hother

/-- A Cache behind a memo layer and a LockHandle that shares the bare store. -/
def pairSystem : System Bool where
  party := fun p => if p then .handle (ascii "job") ⟨10, none⟩ else .cache ⟨none⟩
  stack := fun p => if p then .memory else .memo (.shaping .memory) 0
  token := fun p => if p then ascii "handle" else ascii "cache"
  distinct := by decide
  defaultTTL := DefaultTTL.normalize 0

/-- The pair meets an empty store. -/
def pairStart : World Unit pairSystem where
  clients := fun p => (pairSystem.party p).client.initial
  flights := fun _ _ => none
  items := fun _ => none
  memos := fun _ => Memo.Table.empty
  now := 0
  ledger := []

/-- The Cache takes the lock, its lifetime passes, the handle takes over, and the
Cache starts a late `Unlock`. -/
def takeover : List (Step Unit pairSystem) :=
  [.act false (.tryLock () (ascii "job") 5), .act false (.attempt ()), .effect false (),
    .forget false (), .deliver false (), .act false (.settle ()), .tick 6,
    .act true (.enter () .acquire), .act true (.attempt ()), .effect true (),
    .deliver true (), .act true (.settle ()),
    .act false (.unlock () (ascii "job")), .act false (.release ())]

/-- The late `Unlock` of the Cache leaves the record of its successor alone. -/
theorem owner_safe_exclusion_takeover :
    ∃ w w' : World Unit pairSystem,
      run (World.step pairSystem) pairStart takeover = some w ∧
      w.step pairSystem (.effect false ()) = some w' ∧
      w.ledger.map (fun a => (a.party, a.returned, a.released)) =
        [(false, true, false), (true, true, false)] ∧
      w.items (lockKey (ascii "job")) = some ⟨ascii "handle", 16⟩ ∧
      w'.items (lockKey (ascii "job")) = some ⟨ascii "handle", 16⟩ := by
  refine ⟨_, _, rfl, rfl, by decide, by decide, ?_⟩
  exact (owner_safe_exclusion ⟨pairStart, takeover, ⟨fun _ => rfl, fun _ _ => rfl, rfl⟩, rfl⟩).2.2
    (.effect false ()) _ false () rfl rfl (fun _ _ => nofun) _ _ (by decide) (by decide)

end Lock
end GoforjCache
