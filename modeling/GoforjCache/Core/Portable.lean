import GoforjCache.Core.Observation

/-!
# Core - What a program may rely on with every driver

The drivers count time in nanoseconds, milliseconds or whole seconds, name their records in
different ways and disagree on some calls.  The setting below is what they have in common: a clock
in whole milliseconds after the epoch, lifetimes in whole seconds, and the calls on which no
driver differs from another.

Main results:

- Theorem `Lawful.restrict`: a store that follows the contract in a setting does so in every
  narrower one.
- Theorem `Layout.Sound.restrict`: the same for the lives of records.
-/

namespace GoforjCache
namespace Observation

open Foundation

/-! ## Narrower settings -/

/-- A setting with fewer instants, lifetimes and calls, in which what is written lives as long. -/
structure Setting.Within (Q P : Setting) : Prop where
  times : ∀ t, Q.times t → P.times t
  lifetimes : ∀ ttl, Q.lifetimes ttl → P.lifetimes ttl
  alive : ∀ now ttl later, Q.times now → Q.alive now ttl later = P.alive now ttl later

section Restrict

variable {P Q : Setting} {σ : Type} {S : Store σ}

theorem after_eq_of_within (h : Q.Within P) {now : Int} (hnow : Q.times now) (later : Int)
    (kept : Option Bytes) (c : Change) : after Q now later kept c = after P now later kept c := by
  cases c with
  | keep | drop => rfl
  | put value ttl => simp only [after, h.alive now ttl later hnow]

/-- A store that follows the contract in a setting does so in every narrower one. -/
theorem Lawful.restrict (hS : Lawful P S) (h : Q.Within P)
    (hcalls : ∀ held op, Q.calls held op → P.calls held op) : Lawful Q S where
  follows := by
    intro now s op hnow hvalid hop
    have hadmits : P.Admits (S.live now s) op :=
      ⟨fun ttl httl => h.lifetimes ttl (hop.lifetime ttl httl), hcalls _ op hop.call⟩
    have hfollows := hS.follows now s op (h.times now hnow) hvalid hadmits
    refine ⟨hfollows.answer, ?_, hfollows.valid⟩
    intro key later hlater hle
    rw [hfollows.holds key later (h.times later hlater) hle, after_eq_of_within h hnow]
  tidy_valid := hS.tidy_valid
  tidy_live := fun now s hnow key later hlater hle =>
    hS.tidy_live now s (h.times now hnow) key later (h.times later hlater) hle

/-- Records that live for their lifetimes in a setting do so in every narrower one. -/
theorem Layout.Sound.restrict {C V : Type} {L : Layout C V} (hL : L.Sound P) (h : Q.Within P) :
    L.Sound Q where
  dead := fun now later v hnow hlater hle hdead =>
    hL.dead now later v (h.times now hnow) (h.times later hlater) hle hdead
  lives := by
    intro now later value ttl hnow hlater hle httl
    rw [hL.lives now later value ttl (h.times now hnow) (h.times later hlater) hle
      (h.lifetimes ttl httl), h.alive now ttl later hnow]

end Restrict

/-! ## Calls that are made of others -/

section Calls

variable {C V : Type} {L : Layout C V} {exec : Int → (Key → C) → Op → (Key → C) × Res} {now : Int}
  {t : Key → C}

/-- `DeleteMany` works record by record when it empties the cells of its keys. -/
theorem Layout.recordwise_of_deleteMany {keys : List Key} {c : C} (hc : L.record c = none)
    (hexec : exec now t (.deleteMany keys) =
      (fun k => if k ∈ keys.map L.name then c else t k, .done)) :
    L.Recordwise exec now t (.deleteMany keys) where
  answer := by
    intro _ _
    rw [hexec]
    rfl
  touched := by
    intro key htouches
    rw [Op.touches_deleteMany, decide_eq_true_eq] at htouches
    rw [hexec]
    exact (congrArg L.record (if_pos (List.mem_map_of_mem htouches))).trans hc
  others := by
    intro key hother
    rw [Op.touches_deleteMany, decide_eq_false_iff_not] at hother
    have hname : L.name key ∉ keys.map L.name :=
      fun hmem => hother ((List.mem_map_of_injective L.name_injective).mp hmem)
    rw [hexec]
    exact congrArg L.record (if_neg hname)

/-- `LockAcquire` is an `Add` of the owner. -/
theorem Layout.Recordwise.lockAcquire {key : Key} {owner : Bytes} {ttl : Duration}
    (h : L.Recordwise exec now t (.add key owner ttl))
    (hexec : exec now t (.lockAcquire key owner ttl) = exec now t (.add key owner ttl)) :
    L.Recordwise exec now t (.lockAcquire key owner ttl) where
  answer := by
    rw [hexec]
    exact h.answer
  touched := by
    rw [hexec]
    exact h.touched
  others := by
    rw [hexec]
    exact h.others

end Calls

/-! ## The common setting -/

/-- An instant after the epoch in whole milliseconds for which `UnixNano` is defined. -/
structure Whole (t : Int) : Prop where
  dvd : 1000000 ∣ t
  lower : 0 ≤ t
  upper : t < 2 ^ 63

/-- A counter call meets no value, or a number as the stores write it to which the difference can
be added.  On other values the drivers differ. -/
def Countable (delta : Int64) : Option Bytes → Prop
  | none => True
  | some body => ∃ n, body = Decimal.formatInt n ∧ (n + delta).toInt = n.toInt + delta.toInt

/-- The calls on which no driver differs from another. -/
structure Portable (held : Key → Option Bytes) (op : Op) : Prop where
  keyed : op ≠ .flush
  -- a batch of deletions that names a key twice is refused by DynamoDB
  distinct : ∀ keys, op = .deleteMany keys → keys.Nodup
  counts : ∀ key delta ttl, op.counter = some (key, delta, ttl) → Countable delta (held key)
  -- SQL and DynamoDB also release a lock that has expired
  held : ∀ key owner, op = .lockRelease key owner → held key ≠ none

/-- The calls on which no driver differs whatever the keys hold. -/
def simple : Op → Bool
  | .get _ | .set _ _ _ | .add _ _ _ | .delete _ | .lockAcquire _ _ _ => true
  | _ => false

theorem Portable.of_simple {held : Key → Option Bytes} {op : Op} (h : simple op = true) :
    Portable held op := by
  cases op <;> cases h <;>
    exact ⟨Op.noConfusion, fun _ h => Op.noConfusion h, by simp [Op.counter],
      fun _ _ h => Op.noConfusion h⟩

/-- A clock in whole milliseconds, lifetimes in whole seconds, and those calls. -/
def portable (d : DefaultTTL) : Setting where
  times := Whole
  lifetimes := fun ttl => 1000000000 ∣ (d.resolve ttl).toInt
  alive := fun now ttl later => decide (later ≤ now + (d.resolve ttl).toInt)
  calls := Portable

/-- The plan of a counter call on a number that the stores wrote. -/
theorem planIncrement_of_countable {key : Key} {delta : Int64} {live : Option Bytes}
    (h : Countable delta live) (ttl : Duration) :
    ∃ n : Int64, planIncrement key delta ttl live =
        (.put (Decimal.formatInt (n + delta)) ttl, .number (n + delta)) ∧
      (live = none ∧ n = 0 ∨ live = some (Decimal.formatInt n)) ∧
      (n + delta).toInt = n.toInt + delta.toInt := by
  cases live with
  | none => exact ⟨0, rfl, Or.inl ⟨rfl, rfl⟩, by simp⟩
  | some body =>
    obtain ⟨n, rfl, hsum⟩ := h
    exact ⟨n, planIncrement_of_number (Decimal.parseInt_formatInt n) key delta ttl,
      Or.inr rfl, hsum⟩

end Observation
end GoforjCache
