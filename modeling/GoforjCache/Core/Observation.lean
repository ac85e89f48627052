import GoforjCache.Core.Contract
import GoforjCache.Foundation.Transition

/-!
# Core - Stores seen through what their keys hold

A store is seen through what its keys hold, now and at later instants if nothing is called until
then.  A call follows the contract when it answers by its plan, from what its key holds now, and
when each key holds later what the plan makes of it.  How a store keeps its records, and when it
drops the dead ones, does not show; it may also tidy up between calls.

Two stores that follow the contract and whose keys hold the same give the same answers in every run.
One of them can be the reference: a map whose entries live up to an instant.

Main results:

- Theorem `reference_lawful`: the reference follows the contract.
- Theorem `Layout.lawful`: a store that works record by record follows the contract.
- Theorem `agree_call`: a call of two stores that hold the same gives the same answer, and
  they hold the same after it.
- Theorem `runsAlike_of_lawful`: two stores that follow the contract run alike.
-/

namespace GoforjCache
namespace Observation

open Function Foundation Foundation.Transition

/-! ## Stores and the contract -/

/-- A store: its calls at an instant, what it does on its own at an instant, what a key holds at an
instant, and its proper states. -/
structure Store (σ : Type) where
  exec : Int → σ → Op → σ × Res
  tidy : Int → σ → σ
  live : Int → σ → Key → Option Bytes
  valid : σ → Prop

/-- What a comparison is about: the instants of the clock, the lifetimes that calls are given, when
what was written at an instant with a lifetime is alive, and the calls that are made, given what the
keys hold. -/
structure Setting where
  times : Int → Prop
  lifetimes : Duration → Prop
  alive : Int → Duration → Int → Bool
  calls : (Key → Option Bytes) → Op → Prop

/-- A call belongs to the setting. -/
structure Setting.Admits (P : Setting) (held : Key → Option Bytes) (op : Op) : Prop where
  lifetime : ∀ ttl, op.ttl = some ttl → P.lifetimes ttl
  call : P.calls held op

/-- What a key holds at a later instant after a change, given what it would hold without. -/
def after (P : Setting) (now later : Int) (kept : Option Bytes) : Change → Option Bytes
  | .keep => kept
  | .put value ttl => if P.alive now ttl later then some value else none
  | .drop => none

variable {σ τ : Type}

/-- A call follows the contract. -/
structure Follows (P : Setting) (S : Store σ) (now : Int) (s : σ) (op : Op) : Prop where
  answer : ∀ key, op.single = some key ∨ op.single = none →
    (S.exec now s op).2 = (op.plan (S.live now s key)).2
  holds : ∀ key later, P.times later → now ≤ later →
    S.live later (S.exec now s op).1 key =
      if op.touches key then
        after P now later (S.live later s key) (op.plan (S.live now s key)).1
      else S.live later s key
  valid : S.valid (S.exec now s op).1

/-- Every admitted call follows the contract, and what the store does on its own does not show. -/
structure Lawful (P : Setting) (S : Store σ) : Prop where
  follows : ∀ now s op, P.times now → S.valid s → P.Admits (S.live now s) op → Follows P S now s op
  tidy_valid : ∀ now s, S.valid s → S.valid (S.tidy now s)
  tidy_live : ∀ now s, P.times now → ∀ key later, P.times later → now ≤ later →
    S.live later (S.tidy now s) key = S.live later s key

/-! ## The reference -/

/-- A value and the last instant of its life. -/
structure Entry where
  value : Bytes
  lastInstant : Int
deriving DecidableEq, Repr

/-- The value of an entry that lives. -/
def Entry.live (now : Int) : Option Entry → Option Bytes
  | none => none
  | some e => if now ≤ e.lastInstant then some e.value else none

/-- The entry after a change. -/
def Entry.apply (d : DefaultTTL) (now : Int) (e : Option Entry) : Change → Option Entry
  | .keep => e
  | .put value ttl => some ⟨value, now + (d.resolve ttl).toInt⟩
  | .drop => none

/-- The reference map: every call is its plan. -/
def reference (d : DefaultTTL) : Store (Key → Option Entry) where
  exec := fun now m op =>
    (fun key =>
      if op.touches key then Entry.apply d now (m key) (op.plan (Entry.live now (m key))).1
      else m key,
     (op.plan (Entry.live now (m ((op.single).getD [])))).2)
  tidy := fun _ m => m
  live := fun now m key => Entry.live now (m key)
  valid := fun _ => True

/-- The reference follows the contract, where entries live up to an instant. -/
theorem reference_lawful {P : Setting} {d : DefaultTTL} (halive : ∀ now ttl later,
      P.alive now ttl later = decide (later ≤ now + (d.resolve ttl).toInt)) :
    Lawful P (reference d) where
  follows := by
    intro now m op _ _ _
    refine ⟨?_, ?_, trivial⟩
    · intro key hkey
      rcases hkey with hsingle | hnone
      · simp only [reference, hsingle, Option.getD_some]
      · exact congrArg Prod.snd (Op.plan_of_single_eq_none hnone _ _)
    · intro key later _ _
      simp only [reference]
      split
      · cases (op.plan (Entry.live now (m key))).1 with
        | keep | drop => rfl
        | put value ttl => simp only [Entry.apply, Entry.live, after, halive, decide_eq_true_eq]
      · rfl
  tidy_valid := fun _ _ _ => trivial
  tidy_live := fun _ _ _ _ _ _ _ => rfl

/-! ## Stores that keep one record for a key -/

/-- How a store keeps the record of a key in a table: the name of the record, what of a cell is the
record, how a record is read, what is written, and which records the store itself writes. -/
structure Layout (C V : Type) where
  name : Key → Key
  name_injective : Injective name
  record : C → Option V
  look : Int → V → Option Bytes
  entry : Int → Bytes → Duration → V
  proper : V → Prop
  proper_entry : ∀ now value ttl, proper (entry now value ttl)

namespace Layout

variable {C V : Type} (L : Layout C V)

/-- The record of a key. -/
def at_ (t : Key → C) (key : Key) : Option V := L.record (t (L.name key))

/-- What a key holds. -/
def live (now : Int) (t : Key → C) (key : Key) : Option Bytes := (L.at_ t key).bind (L.look now)

/-- The record a change leaves behind.  A record that is dead may be removed at any time. -/
def Becomes (now : Int) (v : Option V) : Change → Option V → Prop
  | .keep, v' => v' = v ∨ (v' = none ∧ v.bind (L.look now) = none)
  | .put value ttl, v' => v' = some (L.entry now value ttl)
  | .drop, v' => v' = none

/-- The store with its calls; its records are proper. -/
def store (exec : Int → (Key → C) → Op → (Key → C) × Res) (tidy : Int → (Key → C) → Key → C) :
    Store (Key → C) where
  exec := exec
  tidy := tidy
  live := L.live
  valid := fun t => ∀ key v, L.at_ t key = some v → L.proper v

/-- Dead records stay dead, and a record lives for its lifetime. -/
structure Sound (P : Setting) : Prop where
  dead : ∀ now later v, P.times now → P.times later → now ≤ later → L.look now v = none →
    L.look later v = none
  lives : ∀ now later value ttl, P.times now → P.times later → now ≤ later → P.lifetimes ttl →
    L.look later (L.entry now value ttl) = if P.alive now ttl later then some value else none

/-- A call works record by record. -/
structure Recordwise (exec : Int → (Key → C) → Op → (Key → C) × Res) (now : Int) (t : Key → C)
    (op : Op) : Prop where
  answer : ∀ key, op.single = some key ∨ op.single = none →
    (exec now t op).2 = (op.plan (L.live now t key)).2
  touched : ∀ key, op.touches key = true →
    L.Becomes now (L.at_ t key) (op.plan (L.live now t key)).1 (L.at_ (exec now t op).1 key)
  others : ∀ key, op.touches key = false → L.at_ (exec now t op).1 key = L.at_ t key

variable {L} {P : Setting} {now : Int} {t : Key → C} {op : Op}
  {exec : Int → (Key → C) → Op → (Key → C) × Res} {tidy : Int → (Key → C) → Key → C}

/-- What a record that a change leaves behind holds later. -/
theorem Becomes.live (hsound : L.Sound P) {later : Int} (hnow : P.times now)
    (hlater : P.times later) (hle : now ≤ later) {v v' : Option V} {c : Change}
    (hput : ∀ value ttl, c = .put value ttl → P.lifetimes ttl) (h : L.Becomes now v c v') :
    v'.bind (L.look later) = after P now later (v.bind (L.look later)) c := by
  cases c with
  | keep =>
    rcases h with rfl | ⟨rfl, hdead⟩
    · rfl
    · cases v with
      | none => rfl
      | some v => exact (hsound.dead now later v hnow hlater hle hdead).symm
  | put value ttl =>
    have hv : v' = some (L.entry now value ttl) := h
    rw [hv]
    exact hsound.lives now later value ttl hnow hlater hle (hput value ttl rfl)
  | drop =>
    have hv : v' = none := h
    rw [hv]
    rfl

/-- A record that a change leaves behind is proper. -/
theorem Becomes.proper {v v' : Option V} {c : Change} (h : L.Becomes now v c v')
    (hv : ∀ x, v = some x → L.proper x) {x : V} (hx : v' = some x) : L.proper x := by
  subst hx
  cases c with
  | keep =>
    rcases h with hsame | ⟨hnone, _⟩
    · exact hv x hsame.symm
    · cases hnone
  | put value ttl =>
    cases (h : some x = some (L.entry now value ttl))
    exact L.proper_entry now value ttl
  | drop => cases (h : some x = none)

/-- A call that works record by record follows the contract. -/
theorem Recordwise.follows (hsound : L.Sound P) (hnow : P.times now)
    (hvalid : (L.store exec tidy).valid t) (hop : P.Admits (L.live now t) op)
    (h : L.Recordwise exec now t op) : Follows P (L.store exec tidy) now t op where
  answer := h.answer
  holds := by
    intro key later hlater hle
    split
    · rename_i htouches
      refine (h.touched key htouches).live hsound hnow hlater hle ?_
      intro value ttl hput
      exact hop.lifetime ttl (Op.ttl_of_put hput)
    · rename_i hother
      exact congrArg (Option.bind · (L.look later)) (h.others key (Bool.not_eq_true _ ▸ hother))
  valid := by
    intro key v hv
    by_cases htouches : op.touches key = true
    · exact (h.touched key htouches).proper (hvalid key) hv
    · exact hvalid key v ((h.others key (Bool.not_eq_true _ ▸ htouches)).symm.trans hv)

/-- A store that works record by record, and drops dead records on its own, follows the contract. -/
theorem lawful (hsound : L.Sound P)
    (hexec : ∀ now t op, P.times now → (L.store exec tidy).valid t → P.Admits (L.live now t) op →
      L.Recordwise exec now t op)
    (htidy : ∀ now t key, L.Becomes now (L.at_ t key) .keep (L.at_ (tidy now t) key)) :
    Lawful P (L.store exec tidy) where
  follows := fun now t op hnow hvalid hop =>
    (hexec now t op hnow hvalid hop).follows hsound hnow hvalid hop
  tidy_valid := fun now t hvalid key _ hv => (htidy now t key).proper (hvalid key) hv
  tidy_live := fun now t hnow key _ hlater hle =>
    (htidy now t key).live hsound hnow hlater hle (fun _ _ hput => by cases hput)

theorem live_of_none {key : Key} (h : L.at_ t key = none) : L.live now t key = none := by
  rw [live, h, Option.bind_none]

theorem live_of_some {key : Key} {v : V} (h : L.at_ t key = some v) :
    L.live now t key = L.look now v := by
  rw [live, h, Option.bind_some]

section Single

variable {key : Key} {res : Res}

/-- A call on one record works record by record when it writes the cell of its key. -/
theorem recordwise_of_update (hsingle : op.single = some key) {change : Change} {c : C}
    (hplan : op.plan (L.live now t key) = (change, res))
    (hexec : exec now t op = (update t (L.name key) c, res))
    (hc : L.Becomes now (L.at_ t key) change (L.record c)) : L.Recordwise exec now t op where
  answer := by
    intro key' hkey'
    rw [hsingle] at hkey'
    rcases hkey' with heq | hnone
    · cases heq
      rw [hexec, hplan]
    · cases hnone
  touched := by
    intro key' htouches
    rw [Op.touches_of_single hsingle, decide_eq_true_eq] at htouches
    subst htouches
    rw [hexec, hplan]
    simpa only [at_, update_self] using hc
  others := by
    intro key' hother
    rw [Op.touches_of_single hsingle, decide_eq_false_iff_not] at hother
    have hne : L.name key' ≠ L.name key := fun heq => hother (L.name_injective heq)
    simp only [hexec, at_, update_of_ne hne]

/-- The same for a call that keeps the table. -/
theorem recordwise_of_keep (hsingle : op.single = some key)
    (hplan : op.plan (L.live now t key) = (.keep, res)) (hexec : exec now t op = (t, res)) :
    L.Recordwise exec now t op := by
  refine recordwise_of_update (c := t (L.name key)) hsingle hplan ?_ (Or.inl rfl)
  rw [hexec, update_eq_self]

end Single

end Layout

/-! ## Two stores -/

/-- The keys of two stores hold the same, now and later. -/
def Agree (P : Setting) (S : Store σ) (S' : Store τ) (now : Int) (s : σ) (s' : τ) : Prop :=
  ∀ key later, P.times later → now ≤ later → S.live later s key = S'.live later s' key

variable {P : Setting} {S : Store σ} {S' : Store τ}

theorem Agree.later {now later : Int} {s : σ} {s' : τ} (h : Agree P S S' now s s')
    (hle : now ≤ later) : Agree P S S' later s s' :=
  fun key t ht hlater => h key t ht (hle.trans hlater)

/-- A call gives the same answer, and the keys hold the same after it. -/
theorem agree_call {now : Int} {s : σ} {s' : τ} {op : Op} (hnow : P.times now)
    (h : Agree P S S' now s s') (hfirst : Follows P S now s op) (hsecond : Follows P S' now s' op) :
    (S.exec now s op).2 = (S'.exec now s' op).2 ∧
      Agree P S S' now (S.exec now s op).1 (S'.exec now s' op).1 := by
  constructor
  · have hcases : ∃ key, op.single = some key ∨ op.single = none := by
      cases hsingle : op.single with
      | some key => exact ⟨key, Or.inl rfl⟩
      | none => exact ⟨[], Or.inr rfl⟩
    obtain ⟨key, hkey⟩ := hcases
    rw [hfirst.answer key hkey, hsecond.answer key hkey, h key now hnow le_rfl]
  · intro key later hlater hle
    rw [hfirst.holds key later hlater hle, hsecond.holds key later hlater hle,
      h key later hlater hle, h key now hnow le_rfl]

/-! ## Runs -/

/-- Two stores and the clock. -/
structure World (σ τ : Type) where
  first : σ
  second : τ
  now : Int

/-- A call of both stores, what they do on their own, or a step of the clock. -/
inductive Event where
  | call (op : Op)
  | tidy
  | tick (d : Nat)

/-- One step. -/
def step (S : Store σ) (S' : Store τ) (w : World σ τ) : Event → Option (World σ τ)
  | .call op => some ⟨(S.exec w.now w.first op).1, (S'.exec w.now w.second op).1, w.now⟩
  | .tidy => some ⟨S.tidy w.now w.first, S'.tidy w.now w.second, w.now⟩
  | .tick d => some { w with now := w.now + d }

/-- The side condition of a step: the call is admitted, and the clock stays among its instants. -/
def Guard (P : Setting) (S : Store σ) (w : World σ τ) : Event → Prop
  | .call op => P.Admits (S.live w.now w.first) op
  | .tidy => True
  | .tick d => P.times (w.now + d)

/-- The stores hold the same, in proper states. -/
structure Start (P : Setting) (S : Store σ) (S' : Store τ) (w : World σ τ) : Prop where
  now : P.times w.now
  first : S.valid w.first
  second : S'.valid w.second
  agree : Agree P S S' w.now w.first w.second

/-- From stores that hold the same, every admitted call of every run is answered alike. -/
def RunsAlike (P : Setting) (S : Store σ) (S' : Store τ) : Prop :=
  ∀ (w₀ w : World σ τ) (es : List Event), Start P S S' w₀ → Along (step S S') (Guard P S) w₀ es →
    run (step S S') w₀ es = some w → ∀ op, P.Admits (S.live w.now w.first) op →
      (S.exec w.now w.first op).2 = (S'.exec w.now w.second op).2

/-- The keys hold the same now. -/
theorem Start.live_eq {w : World σ τ} (h : Start P S S' w) :
    S.live w.now w.first = S'.live w.now w.second := by
  funext key
  exact h.agree key w.now h.now le_rfl

theorem start_step (hfirst : Lawful P S) (hsecond : Lawful P S') {w w' : World σ τ} {e : Event}
    (h : Start P S S' w) (hG : Guard P S w e) (hstep : step S S' w e = some w') :
    Start P S S' w' := by
  cases e with
  | call op =>
    cases hstep
    have hone := hfirst.follows w.now w.first op h.now h.first hG
    have htwo := hsecond.follows w.now w.second op h.now h.second (h.live_eq ▸ hG)
    exact ⟨h.now, hone.valid, htwo.valid, (agree_call h.now h.agree hone htwo).2⟩
  | tidy =>
    cases hstep
    refine ⟨h.now, hfirst.tidy_valid _ _ h.first, hsecond.tidy_valid _ _ h.second, ?_⟩
    intro key later hlater hle
    rw [hfirst.tidy_live _ _ h.now key later hlater hle,
      hsecond.tidy_live _ _ h.now key later hlater hle]
    exact h.agree key later hlater hle
  | tick d =>
    cases hstep
    exact ⟨hG, h.first, h.second, h.agree.later (by dsimp only; omega)⟩

/-- The stores hold the same after every run. -/
theorem start_run (hfirst : Lawful P S) (hsecond : Lawful P S') {w₀ w : World σ τ}
    {es : List Event} (hstart : Start P S S' w₀) (hguard : Along (step S S') (Guard P S) w₀ es)
    (hrun : run (step S S') w₀ es = some w) : Start P S S' w :=
  run_preserves_along (fun _ _ _ hw hG hstep => start_step hfirst hsecond hw hG hstep) hstart
    hguard hrun

/-- Two stores that follow the contract run alike. -/
theorem runsAlike_of_lawful (hfirst : Lawful P S) (hsecond : Lawful P S') : RunsAlike P S S' := by
  intro w₀ w es hstart hguard hrun op hop
  have h := start_run hfirst hsecond hstart hguard hrun
  have hone := hfirst.follows w.now w.first op h.now h.first hop
  have htwo := hsecond.follows w.now w.second op h.now h.second (h.live_eq ▸ hop)
  exact (agree_call h.now h.agree hone htwo).1

end Observation
end GoforjCache
