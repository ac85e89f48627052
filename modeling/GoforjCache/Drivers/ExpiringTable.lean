import GoforjCache.Core.Observation
import GoforjCache.Dynamo.Store
import GoforjCache.Sql.Store

/-!
# Drivers - The tables of the SQL and DynamoDB stores as expiring maps

The rows of the SQL store and the items of the DynamoDB store stay in their tables after they have
expired.  `Get` removes them when it meets them, `Add` writes over them and
`Increment` counts from zero.  On a clock in whole milliseconds all of them place the end of a
life at the same instant, so the two stores cannot be told from the reference map.

Main results:

- Theorem `unixMilli_lt_iff`: on a clock in whole milliseconds the stores compare instants.
- Theorem `sql_recordwise`, `dynamo_recordwise`: a call works record by record.
- Theorem `tables_implement_map`: both stores answer as the reference map in every run.
-/

namespace GoforjCache
namespace ExpiringTable

open Function Foundation Foundation.Transition Observation
open Nats (millis unixMilli toInt_unixMilli)

/-! ## A clock in whole milliseconds -/

/-- An instant in whole milliseconds.  `UnixMilli` is defined for it and for every instant that
a duration reaches from it. -/
structure Whole (t : Int) : Prop where
  dvd : 1000000 ∣ t
  lower : -2 ^ 63 ≤ millis t
  upper : millis (t + 2 ^ 63) < 2 ^ 63

/-- The six calls on a value or a counter. -/
def keyed : Op → Bool
  | .get _ | .set _ _ _ | .add _ _ _ | .increment _ _ _ | .decrement _ _ _ | .delete _ => true
  | _ => false

/-- Clock and lifetimes in whole milliseconds, and the six calls. -/
def wholeMillis (d : DefaultTTL) : Setting where
  times := Whole
  lifetimes := fun ttl => 1000000 ∣ (d.resolve ttl).toInt
  alive := fun now ttl later => decide (later ≤ now + (d.resolve ttl).toInt)
  calls := fun _ op => keyed op = true

variable {d : DefaultTTL} {now later : Int} {ttl : Duration}

theorem Whole.toInt_unixMilli (h : Whole now) : (unixMilli now).toInt = millis now := by
  apply Nats.toInt_unixMilli h.lower
  have hupper := h.upper
  unfold millis Instant at *
  omega

/-- An expiration in milliseconds has passed when its instant has. -/
theorem unixMilli_lt_iff (hnow : Whole now) (hlater : Whole later)
    (httl : (wholeMillis d).lifetimes ttl) :
    unixMilli (now + (d.resolve ttl).toInt) < unixMilli later ↔
      now + (d.resolve ttl).toInt < later := by
  have hpos : 0 < (d.resolve ttl).toInt := Int64.lt_iff_toInt_lt.mp (d.resolve_pos ttl)
  have hmax : (d.resolve ttl).toInt < 2 ^ 63 := (d.resolve ttl).toInt_lt
  have hdeadline : (unixMilli (now + (d.resolve ttl).toInt)).toInt =
      millis (now + (d.resolve ttl).toInt) := by
    have hlower := hnow.lower
    have hupper := hnow.upper
    apply Nats.toInt_unixMilli <;> unfold millis Instant at * <;> omega
  rw [Int64.lt_iff_toInt_lt, hdeadline, hlater.toInt_unixMilli]
  have hdvd := hnow.dvd
  have hdvd' := hlater.dvd
  have hdvd'' : 1000000 ∣ (d.resolve ttl).toInt := httl
  unfold millis Instant at *
  omega

/-- What lives up to its expiration lives for its lifetime. -/
theorem live_eq (hnow : Whole now) (hlater : Whole later) (httl : (wholeMillis d).lifetimes ttl)
    (value : Bytes) :
    (if unixMilli (now + (d.resolve ttl).toInt) < unixMilli later then none else some value) =
      if (wholeMillis d).alive now ttl later then some value else none := by
  simp only [wholeMillis, decide_eq_true_eq, unixMilli_lt_iff hnow hlater httl]
  by_cases hlive : later ≤ now + (d.resolve ttl).toInt
  · rw [if_pos hlive, if_neg (not_lt.mpr hlive)]
  · rw [if_neg hlive, if_pos (not_le.mp hlive)]

/-- An expiration that has passed stays so. -/
theorem unixMilli_mono (hnow : Whole now) (hlater : Whole later) (hle : now ≤ later) {ea : Int64}
    (h : ea < unixMilli now) : ea < unixMilli later := by
  rw [Int64.lt_iff_toInt_lt, hnow.toInt_unixMilli] at h
  rw [Int64.lt_iff_toInt_lt, hlater.toInt_unixMilli]
  unfold millis Instant at *
  omega

/-- `Add` starts from the clock in whole milliseconds and loses nothing by that. -/
theorem unixMilli_toInt (hnow : Whole now) : (unixMilli now).toInt * 1000000 = now := by
  have hdvd := hnow.dvd
  rw [hnow.toInt_unixMilli]
  unfold millis Instant
  omega

/-! ## Counters -/

/-- The plan of a counter call from the number that the live value stands for. -/
theorem planIncrement_of_ok {key : Key} {delta n : Int64} {live : Option Bytes}
    (h : Dynamo.currentNumber key live = .ok n) (ttl : Duration) :
    planIncrement key delta ttl live =
      (.put (Decimal.formatInt (n + delta)) ttl, .number (n + delta)) := by
  cases live with
  | none =>
    cases h
    rfl
  | some body =>
    cases hparse : Decimal.parseInt body with
    | some m =>
      simp only [Dynamo.currentNumber, hparse] at h
      cases h
      exact planIncrement_of_number hparse key delta ttl
    | none => simp only [Dynamo.currentNumber, hparse, reduceCtorEq] at h

/-- The plan of a counter call on a live value that is no number. -/
theorem planIncrement_of_error {key : Key} {delta : Int64} {live : Option Bytes} {err : CacheError}
    (h : Dynamo.currentNumber key live = .error err) (ttl : Duration) :
    planIncrement key delta ttl live = (.keep, .error err) := by
  cases live with
  | none => cases h
  | some body =>
    cases hparse : Decimal.parseInt body with
    | some m => simp only [Dynamo.currentNumber, hparse, reduceCtorEq] at h
    | none =>
      simp only [Dynamo.currentNumber, hparse] at h
      cases h
      exact planIncrement_of_text hparse key delta ttl

/-! ## The SQL store -/

/-- The rows of the SQL store. -/
def sqlLayout (cfg : Sql.Config) : Layout (Option Sql.Row) Sql.Row where
  name := Sql.cacheKey cfg
  name_injective := Sql.cacheKey_injective cfg
  record := id
  look := fun now row => if row.expired now then none else some row.v
  entry := fun now value ttl => ⟨value, Sql.setExpiry cfg now ttl⟩
  proper := fun _ => True
  proper_entry := fun _ _ _ => trivial

/-- The SQL store, seen through what its keys hold. -/
def sqlStore (cfg : Sql.Config) : Store Sql.Table :=
  (sqlLayout cfg).store (Sql.exec cfg) fun _ t => t

/-- Rows die at the end of their lifetime. -/
theorem sqlLayout_sound (cfg : Sql.Config) :
    (sqlLayout cfg).Sound (wholeMillis cfg.defaultTTL) where
  dead := by
    intro now later row hnow hlater hle hdead
    simp only [sqlLayout, Sql.Row.expired, ite_eq_left_iff, decide_eq_true_eq, reduceCtorEq,
      imp_false, not_not] at hdead ⊢
    exact unixMilli_mono hnow hlater hle hdead
  lives := by
    intro now later value ttl hnow hlater hle httl
    simp only [sqlLayout, Sql.Row.expired, Sql.setExpiry, decide_eq_true_eq]
    exact live_eq hnow hlater httl value

section Sql

variable {cfg : Sql.Config} {t : Sql.Table} {key : Key}

/-- What the reads of the SQL store see of a row. -/
theorem sql_live_of_dead {row : Sql.Row} (hrow : t (Sql.cacheKey cfg key) = some row)
    (hdead : row.expired now = true) : (sqlLayout cfg).live now t key = none :=
  (Layout.live_of_some (L := sqlLayout cfg) (v := row) hrow).trans (if_pos hdead)

theorem sql_live_of_live {row : Sql.Row} (hrow : t (Sql.cacheKey cfg key) = some row)
    (hlive : row.expired now = false) : (sqlLayout cfg).live now t key = some row.v :=
  (Layout.live_of_some (L := sqlLayout cfg) (v := row) hrow).trans
    (if_neg (Bool.eq_false_iff.mp hlive))

/-- A database that takes every statement. -/
def Willing (cfg : Sql.Config) : Prop := ∀ st k, cfg.refuses st k = none

theorem sql_statement (h : Willing cfg) {α : Type} (st : Sql.Statement) (k : Key) (effect : α) :
    cfg.statement st k effect = .ok effect := by
  rw [Sql.Config.statement, h]

theorem sql_get (h : Willing cfg) : (sqlLayout cfg).Recordwise (Sql.exec cfg) now t (.get key) := by
  cases hrow : t (Sql.cacheKey cfg key) with
  | none =>
    have hlive : (sqlLayout cfg).live now t key = none := Layout.live_of_none hrow
    apply Layout.recordwise_of_keep rfl
    · rw [hlive]
      rfl
    · simp only [Sql.exec, Sql.get, Sql.selectRow, sql_statement h, hrow]
      rfl
  | some row =>
    cases hdead : row.expired now with
    | true =>
      have hlive := sql_live_of_dead hrow hdead
      apply Layout.recordwise_of_update (c := none) rfl
      · rw [hlive]
      · simp only [Sql.exec, Sql.get, Sql.selectRow, Sql.delete, Sql.deleteRow,
          sql_statement h, hrow, hdead, if_true]
        rfl
      · exact Or.inr ⟨rfl, hlive⟩
    | false =>
      have hlive := sql_live_of_live hrow hdead
      apply Layout.recordwise_of_keep rfl
      · rw [hlive]
        rfl
      · simp only [Sql.exec, Sql.get, Sql.selectRow, sql_statement h, hrow, hdead]
        rfl

theorem sql_set (h : Willing cfg) (value : Bytes) (ttl : Duration) :
    (sqlLayout cfg).Recordwise (Sql.exec cfg) now t (.set key value ttl) := by
  apply Layout.recordwise_of_update rfl rfl
  · simp only [Sql.exec, Sql.set, Sql.upsertRow, sql_statement h]
    rfl
  · rfl

theorem sql_delete (h : Willing cfg) :
    (sqlLayout cfg).Recordwise (Sql.exec cfg) now t (.delete key) := by
  apply Layout.recordwise_of_update rfl rfl
  · simp only [Sql.exec, Sql.delete, Sql.deleteRow, sql_statement h]
    rfl
  · rfl

/-- `Add` meets no row, one that has expired, or a live one. -/
theorem sql_add (h : Willing cfg) (hnow : Whole now) (value : Bytes) (ttl : Duration) :
    (sqlLayout cfg).Recordwise (Sql.exec cfg) now t (.add key value ttl) := by
  have hexpiry : Sql.addExpiry cfg (unixMilli now) ttl = Sql.setExpiry cfg now ttl := by
    rw [Sql.addExpiry, Sql.setExpiry, unixMilli_toInt hnow]
  cases hrow : t (Sql.cacheKey cfg key) with
  | none =>
    have hlive : (sqlLayout cfg).live now t key = none := Layout.live_of_none hrow
    apply Layout.recordwise_of_update rfl
    · rw [hlive]
    · simp only [Sql.exec, Sql.add, Sql.insertRow, h _ _, hrow, hexpiry]
      rfl
    · rfl
  | some row =>
    have hreuse : Sql.add cfg now t key value ttl =
        Sql.addReuse cfg t (Sql.cacheKey cfg key) ⟨value, Sql.setExpiry cfg now ttl⟩
          (unixMilli now) := by
      simp only [Sql.add, Sql.insertRow, h _ _, hrow, cfg.duplicate_recognised, hexpiry, if_true]
    cases hdead : row.expired now with
    | true =>
      have hlive := sql_live_of_dead hrow hdead
      have hea : row.ea < unixMilli now := of_decide_eq_true hdead
      apply Layout.recordwise_of_update rfl
      · rw [hlive]
      · simp only [Sql.exec, hreuse, Sql.addReuse, Sql.reuseExpiredRow, sql_statement h, hrow,
          if_pos hea]
        rfl
      · rfl
    | false =>
      have hlive := sql_live_of_live hrow hdead
      have hea : ¬row.ea < unixMilli now := of_decide_eq_false hdead
      apply Layout.recordwise_of_keep rfl
      · rw [hlive]
        rfl
      · simp only [Sql.exec, hreuse, Sql.addReuse, Sql.reuseExpiredRow, sql_statement h, hrow,
          if_neg hea]
        rfl

/-- The number that `Increment` starts from is that of the live value. -/
theorem sql_currentNumber :
    Sql.currentNumber now key (t (Sql.cacheKey cfg key)) =
      Dynamo.currentNumber key ((sqlLayout cfg).live now t key) := by
  cases hrow : t (Sql.cacheKey cfg key) with
  | none =>
    have hlive : (sqlLayout cfg).live now t key = none := Layout.live_of_none hrow
    rw [hlive]
    rfl
  | some row =>
    cases hdead : row.expired now with
    | true =>
      rw [sql_live_of_dead hrow hdead, Sql.currentNumber, if_pos hdead]
      rfl
    | false =>
      rw [sql_live_of_live hrow hdead, Sql.currentNumber, if_neg (Bool.eq_false_iff.mp hdead)]
      rfl

theorem sql_exec_counter {op : Op} {delta : Int64} (hop : op.counter = some (key, delta, ttl)) :
    Sql.exec cfg now t op =
      ((Sql.increment cfg now t key delta ttl).1,
        Res.ofExcept .number (Sql.increment cfg now t key delta ttl).2) := by
  cases op <;> cases hop <;> rfl

/-- What `Increment` does, from the number it starts from. -/
theorem sql_increment (h : Willing cfg) {op : Op} {delta : Int64}
    (hop : op.counter = some (key, delta, ttl)) :
    (sqlLayout cfg).Recordwise (Sql.exec cfg) now t op := by
  have hsingle := Op.single_of_counter hop
  cases hnumber : Dynamo.currentNumber key ((sqlLayout cfg).live now t key) with
  | ok n =>
    apply Layout.recordwise_of_update hsingle
    · rw [Op.plan_of_counter hop, planIncrement_of_ok hnumber]
    · rw [sql_exec_counter hop]
      simp only [Sql.increment, Sql.selectRow, Sql.upsertRow, sql_statement h, sql_currentNumber,
        hnumber]
      rfl
    · rfl
  | error err =>
    apply Layout.recordwise_of_keep hsingle
    · rw [Op.plan_of_counter hop, planIncrement_of_error hnumber]
    · rw [sql_exec_counter hop]
      simp only [Sql.increment, Sql.selectRow, sql_statement h, sql_currentNumber, hnumber]
      rfl

/-- The six calls of the SQL store work row by row. -/
theorem sql_recordwise (h : Willing cfg) (hnow : Whole now) {op : Op} (hop : keyed op = true) :
    (sqlLayout cfg).Recordwise (Sql.exec cfg) now t op := by
  cases op with
  | get key => exact sql_get h
  | set key value ttl => exact sql_set h value ttl
  | add key value ttl => exact sql_add h hnow value ttl
  | increment key delta ttl | decrement key delta ttl => exact sql_increment h rfl
  | delete key => exact sql_delete h
  | deleteMany | flush | lockAcquire | lockRelease => cases hop

/-- The SQL store follows the contract. -/
theorem sqlStore_lawful (h : Willing cfg) : Lawful (wholeMillis cfg.defaultTTL) (sqlStore cfg) := by
  apply Layout.lawful (sqlLayout_sound cfg)
  · intro now t op hnow _ hop
    exact sql_recordwise h hnow hop.call
  · intro now t key
    exact Or.inl rfl

end Sql

/-! ## The DynamoDB store -/

/-- The items of the DynamoDB store.  Those it writes itself have a value. -/
def dynamoLayout (cfg : Dynamo.Config) : Layout (Option Dynamo.Attributes) Dynamo.Attributes where
  name := Dynamo.cacheKey cfg
  name_injective := Dynamo.cacheKey_injective cfg
  record := id
  look := fun now item => if item.expired now then none else item.v
  entry := Dynamo.setItem cfg
  proper := fun item => item.v.isSome = true
  proper_entry := fun _ _ _ => rfl

/-- The DynamoDB store with a service that does everything it is asked for, seen through what its
keys hold. -/
def dynamoStore (cfg : Dynamo.Config) : Store Dynamo.Table :=
  (dynamoLayout cfg).store (Dynamo.exec .willing [] cfg) fun _ t => t

/-- Items that have expired stay so. -/
theorem dynamo_expired_mono (hnow : Whole now) (hlater : Whole later) (hle : now ≤ later)
    {item : Dynamo.Attributes} (h : item.expired now = true) : item.expired later = true := by
  unfold Dynamo.Attributes.expired at h ⊢
  split at h
  · exact decide_eq_true (unixMilli_mono hnow hlater hle (of_decide_eq_true h))
  · cases h

/-- Items die at the end of their lifetime. -/
theorem dynamoLayout_sound (cfg : Dynamo.Config) :
    (dynamoLayout cfg).Sound (wholeMillis cfg.defaultTTL) where
  dead := by
    intro now later item hnow hlater hle hdead
    dsimp only [dynamoLayout] at hdead ⊢
    split at hdead
    · rename_i hexpired
      rw [if_pos (dynamo_expired_mono hnow hlater hle hexpired)]
    · rw [hdead, ite_self]
  lives := by
    intro now later value ttl hnow hlater hle httl
    simp only [dynamoLayout, Dynamo.Attributes.expired, Dynamo.setItem, decide_eq_true_eq]
    exact live_eq hnow hlater httl value

section Dynamo

variable {cfg : Dynamo.Config} {t : Dynamo.Table} {key : Key}

/-- What the reads of the DynamoDB store see of an item. -/
theorem dynamo_live_of_dead {item : Dynamo.Attributes}
    (hitem : t (Dynamo.cacheKey cfg key) = some item) (hdead : item.expired now = true) :
    (dynamoLayout cfg).live now t key = none :=
  (Layout.live_of_some (L := dynamoLayout cfg) (v := item) hitem).trans (if_pos hdead)

theorem dynamo_live_of_live {item : Dynamo.Attributes}
    (hitem : t (Dynamo.cacheKey cfg key) = some item) (hlive : item.expired now = false) :
    (dynamoLayout cfg).live now t key = item.v :=
  (Layout.live_of_some (L := dynamoLayout cfg) (v := item) hitem).trans
    (if_neg (Bool.eq_false_iff.mp hlive))

/-- `Get` answers what its key holds, and leaves the table or removes a dead item. -/
theorem dynamo_get_eq (hvalid : (dynamoStore cfg).valid t) (now : Int) (key : Key) :
    ∃ c, Dynamo.get .willing cfg now t key =
        (update t (Dynamo.cacheKey cfg key) c, .ok ((dynamoLayout cfg).live now t key)) ∧
      (dynamoLayout cfg).Becomes now ((dynamoLayout cfg).at_ t key) .keep c := by
  cases hitem : t (Dynamo.cacheKey cfg key) with
  | none =>
    have hlive : (dynamoLayout cfg).live now t key = none := Layout.live_of_none hitem
    refine ⟨t (Dynamo.cacheKey cfg key), ?_, Or.inl rfl⟩
    simp only [Dynamo.get, Dynamo.Service.willing, hitem, hlive]
    rw [← hitem, update_eq_self]
  | some item =>
    cases hdead : item.expired now with
    | true =>
      have hlive := dynamo_live_of_dead hitem hdead
      refine ⟨none, ?_, Or.inr ⟨rfl, hlive⟩⟩
      simp only [Dynamo.get, Dynamo.delete, Dynamo.Service.willing, hitem, hdead, hlive,
        if_true]
    | false =>
      obtain ⟨value, hvalue⟩ := Option.isSome_iff_exists.mp (hvalid key item hitem)
      have hlive := dynamo_live_of_live hitem hdead
      refine ⟨t (Dynamo.cacheKey cfg key), ?_, Or.inl rfl⟩
      rw [update_eq_self, hlive]
      simp only [Dynamo.get, Dynamo.Service.willing, hitem, hdead, hvalue]
      rfl

theorem dynamo_get (hvalid : (dynamoStore cfg).valid t) :
    (dynamoLayout cfg).Recordwise (Dynamo.exec .willing [] cfg) now t (.get key) := by
  obtain ⟨c, hget, hc⟩ := dynamo_get_eq hvalid now key
  apply Layout.recordwise_of_update rfl rfl
  · simp only [Dynamo.exec, hget]
    rfl
  · exact hc

theorem dynamo_set_eq (value : Bytes) (ttl : Duration) :
    Dynamo.set .willing cfg now t key value ttl =
      (update t (Dynamo.cacheKey cfg key) (some (Dynamo.setItem cfg now value ttl)), none) :=
  rfl

theorem dynamo_set (value : Bytes) (ttl : Duration) :
    (dynamoLayout cfg).Recordwise (Dynamo.exec .willing [] cfg) now t (.set key value ttl) :=
  Layout.recordwise_of_update rfl rfl rfl rfl

theorem dynamo_delete :
    (dynamoLayout cfg).Recordwise (Dynamo.exec .willing [] cfg) now t (.delete key) :=
  Layout.recordwise_of_update rfl rfl rfl rfl

/-- `Add` meets no item, one that has expired, or a live one. -/
theorem dynamo_add (hvalid : (dynamoStore cfg).valid t) (hnow : Whole now) (value : Bytes)
    (ttl : Duration) :
    (dynamoLayout cfg).Recordwise (Dynamo.exec .willing [] cfg) now t (.add key value ttl) := by
  have hentry :
      Dynamo.addItem cfg (unixMilli now) value ttl = Dynamo.setItem cfg now value ttl := by
    rw [Dynamo.addItem, Dynamo.setItem, unixMilli_toInt hnow]
  cases hfree : Dynamo.addable (unixMilli now) (t (Dynamo.cacheKey cfg key)) with
  | true =>
    have hlive : (dynamoLayout cfg).live now t key = none := by
      cases hitem : t (Dynamo.cacheKey cfg key) with
      | none => exact Layout.live_of_none hitem
      | some item =>
        rw [hitem] at hfree
        exact dynamo_live_of_dead hitem hfree
    apply Layout.recordwise_of_update rfl
    · rw [hlive]
    · simp only [Dynamo.exec, Dynamo.add, Dynamo.Service.willing, hfree, hentry, if_true]
      rfl
    · rfl
  | false =>
    cases hitem : t (Dynamo.cacheKey cfg key) with
    | none =>
      rw [hitem] at hfree
      cases hfree
    | some item =>
      rw [hitem] at hfree
      obtain ⟨held, hheld⟩ := Option.isSome_iff_exists.mp (hvalid key item hitem)
      have hlive : (dynamoLayout cfg).live now t key = some held :=
        (dynamo_live_of_live hitem hfree).trans hheld
      apply Layout.recordwise_of_keep rfl
      · rw [hlive]
        rfl
      · simp only [Dynamo.exec, Dynamo.add, Dynamo.Service.willing, hitem, hfree]
        rfl

theorem dynamo_exec_counter {op : Op} {delta : Int64} (hop : op.counter = some (key, delta, ttl)) :
    Dynamo.exec .willing [] cfg now t op =
      ((Dynamo.increment .willing cfg now t key delta ttl).1,
        Res.ofExcept .number (Dynamo.increment .willing cfg now t key delta ttl).2) := by
  cases op <;> cases hop <;> rfl

/-- `Increment` is a `Get` and, for a number, a `Set`. -/
theorem dynamo_increment (hvalid : (dynamoStore cfg).valid t) {op : Op} {delta : Int64}
    (hop : op.counter = some (key, delta, ttl)) :
    (dynamoLayout cfg).Recordwise (Dynamo.exec .willing [] cfg) now t op := by
  have hsingle := Op.single_of_counter hop
  obtain ⟨c, hget, hc⟩ := dynamo_get_eq hvalid now key
  cases hnumber : Dynamo.currentNumber key ((dynamoLayout cfg).live now t key) with
  | ok n =>
    apply Layout.recordwise_of_update hsingle
    · rw [Op.plan_of_counter hop, planIncrement_of_ok hnumber]
    · rw [dynamo_exec_counter hop]
      simp only [Dynamo.increment, hget, hnumber, dynamo_set_eq, update_idem]
      rfl
    · rfl
  | error err =>
    apply Layout.recordwise_of_update hsingle
    · rw [Op.plan_of_counter hop, planIncrement_of_error hnumber]
    · rw [dynamo_exec_counter hop]
      simp only [Dynamo.increment, hget, hnumber]
      rfl
    · exact hc

/-- The six calls of the DynamoDB store work item by item. -/
theorem dynamo_recordwise (hvalid : (dynamoStore cfg).valid t) (hnow : Whole now) {op : Op}
    (hop : keyed op = true) :
    (dynamoLayout cfg).Recordwise (Dynamo.exec .willing [] cfg) now t op := by
  cases op with
  | get key => exact dynamo_get hvalid
  | set key value ttl => exact dynamo_set value ttl
  | add key value ttl => exact dynamo_add hvalid hnow value ttl
  | increment key delta ttl | decrement key delta ttl => exact dynamo_increment hvalid rfl
  | delete key => exact dynamo_delete
  | deleteMany | flush | lockAcquire | lockRelease => cases hop

/-- The DynamoDB store follows the contract. -/
theorem dynamoStore_lawful (cfg : Dynamo.Config) :
    Lawful (wholeMillis cfg.defaultTTL) (dynamoStore cfg) := by
  apply Layout.lawful (dynamoLayout_sound cfg)
  · intro now t op hnow hvalid hop
    exact dynamo_recordwise hvalid hnow hop.call
  · intro now t key
    exact Or.inl rfl

end Dynamo

/-! ## Both stores -/

/-- Both stores answer as the reference map in every run: from tables that hold what the map holds,
in every run of the six calls and of the clock, with clock and lifetimes in whole milliseconds. -/
theorem tables_implement_map (sql : Sql.Config) (hwilling : Willing sql) (dynamo : Dynamo.Config) :
    RunsAlike (wholeMillis sql.defaultTTL) (sqlStore sql) (reference sql.defaultTTL) ∧
      RunsAlike (wholeMillis dynamo.defaultTTL) (dynamoStore dynamo)
        (reference dynamo.defaultTTL) := by
  constructor
  · exact runsAlike_of_lawful (sqlStore_lawful hwilling)
      (reference_lawful fun _ _ _ => rfl)
  · exact runsAlike_of_lawful (dynamoStore_lawful dynamo)
      (reference_lawful fun _ _ _ => rfl)

/-- A value is written for a second, and the second passes. -/
def writtenThenAged : List Event :=
  [.call (.set (ascii "k") (ascii "1") 1000000000), .tick 1000000000]

/-- The stores after that. -/
def aged {σ τ : Type} (S : Store σ) (S' : Store τ) (s : σ) (s' : τ) : World σ τ :=
  ⟨(S.exec 0 s (.set (ascii "k") (ascii "1") 1000000000)).1,
    (S'.exec 0 s' (.set (ascii "k") (ascii "1") 1000000000)).1, 1000000000⟩

theorem whole_zero : Whole 0 := ⟨by decide, by decide, by decide⟩

theorem whole_second : Whole 1000000000 := ⟨by decide, by decide, by decide⟩

/-- One of the six calls with a lifetime of a second is admitted. -/
theorem admits_second {op : Op} (hop : keyed op = true) (httl : op.ttl = some 1000000000)
    (d : DefaultTTL) (held : Key → Option Bytes) : (wholeMillis d).Admits held op where
  lifetime := by
    intro ttl h
    cases httl.symm.trans h
    change (1000000 : Int) ∣ (d.resolve 1000000000).toInt
    rw [d.resolve_of_pos (by decide)]
    decide
  call := hop

theorem writtenThenAged_along {σ τ : Type} (d : DefaultTTL) (S : Store σ) (S' : Store τ) (s : σ)
    (s' : τ) : Along (step S S') (Guard (wholeMillis d) S) ⟨s, s', 0⟩ writtenThenAged := by
  refine ⟨admits_second rfl rfl d _, ?_⟩
  rintro w ⟨⟩
  refine ⟨whole_second, ?_⟩
  rintro w ⟨⟩
  trivial

/-- At the last instant of its life a counter still counts on, in both stores. -/
theorem tables_implement_map_boundary :
    let sql := Sql.Config.sqlite []
    let dynamo : Dynamo.Config := ⟨[], DefaultTTL.normalize 0⟩
    let d := DefaultTTL.normalize 0
    let op := Op.increment (ascii "k") 1 1000000000
    let w := aged (sqlStore sql) (reference d) (fun _ => none) (fun _ => none)
    let w' := aged (dynamoStore dynamo) (reference d) (fun _ => none) (fun _ => none)
    Willing sql ∧ ((sqlStore sql).exec w.now w.first op).2 = .number 2 ∧
      ((dynamoStore dynamo).exec w'.now w'.first op).2 = .number 2 := by
  intro sql dynamo d op w w'
  have hwilling : Willing sql := fun _ _ => rfl
  have hstart : Start (wholeMillis d) (sqlStore sql) (reference d)
      ⟨fun _ => none, fun _ => none, 0⟩ :=
    ⟨whole_zero, by rintro _ _ ⟨⟩, trivial, fun _ _ _ _ => rfl⟩
  have hstart' : Start (wholeMillis d) (dynamoStore dynamo) (reference d)
      ⟨fun _ => none, fun _ => none, 0⟩ :=
    ⟨whole_zero, by rintro _ _ ⟨⟩, trivial, fun _ _ _ _ => rfl⟩
  have h := tables_implement_map sql hwilling dynamo
  refine ⟨hwilling, ?_, ?_⟩
  · rw [h.1 _ w writtenThenAged hstart (writtenThenAged_along _ _ _ _ _) rfl op
      (admits_second rfl rfl _ _)]
    decide
  · rw [h.2 _ w' writtenThenAged hstart' (writtenThenAged_along _ _ _ _ _) rfl op
      (admits_second rfl rfl _ _)]
    decide

end ExpiringTable
end GoforjCache
