import GoforjCache.Drivers.Isolation
import GoforjCache.Dynamo.BulkDelete

/-!
# Drivers - The scope of Flush

`Flush` is to remove the records of its own prefix and no others.  The SQL store empties its
table, and the Memcached store empties the server that it happens to have a connection to; other
applications lose their records, and records of the prefix stay on the other servers.  The DynamoDB
store deletes keys of its own prefix only, and misses those that the service leaves unprocessed.

Main results:

- Theorem `flush_confined_iff`: for which contents of the backend `Flush` is confined to
  its prefix and complete on it.
- Theorem `flush_removes_foreign`: two applications on one table and on one server.
-/

namespace GoforjCache
namespace FlushScope

open Function Foundation
open Isolation (Names)

/-- After a `Flush` no key of the prefix has a record, and every other record is unchanged. -/
def Confined {ρ : Type} (p : Bytes) (before after : Key → Option ρ) : Prop :=
  ∀ full, (Names p full → after full = none) ∧ (¬Names p full → after full = before full)

/-- A backend that was emptied. -/
theorem confined_empty_iff {ρ : Type} {p : Bytes} {before after : Key → Option ρ}
    (h : ∀ full, after full = none) :
    Confined p before after ↔ ∀ full, before full ≠ none → Names p full := by
  constructor
  · intro hconfined full hrecord
    by_contra hforeign
    exact hrecord (((hconfined full).2 hforeign).symm.trans (h full))
  · intro hall full
    constructor
    · intro _
      exact h full
    · intro hforeign
      rw [h full]
      by_contra hrecord
      exact hforeign (hall full (Ne.symm hrecord))

/-- A backend that was left alone. -/
theorem confined_same_iff {ρ : Type} {p : Bytes} {before after : Key → Option ρ}
    (h : ∀ full, after full = before full) :
    Confined p before after ↔ ∀ full, Names p full → before full = none := by
  constructor
  · intro hconfined full hown
    rw [← h full]
    exact (hconfined full).1 hown
  · intro hnone full
    rw [h full]
    exact ⟨hnone full, fun _ => rfl⟩

/-! ## DynamoDB -/

section Dynamo

open Dynamo (Service Config Table Owned ScanLists FlushesAll Cleared flushPages flushNames)

variable {cfg : Config}

theorem owned_iff (h : cfg.keyPrefix ≠ []) (full : Key) :
    Owned cfg full ↔ Names cfg.keyPrefix full := by
  unfold Owned Names Dynamo.cacheKey
  simp only [if_neg h]

/-- The batches of `Flush` name keys of the store only. -/
theorem flushPages_foreign {svc : Service} {t : Table}
    {pages : List (Except CacheError (List Key))} (hnil : (flushPages svc cfg 0 pages t).2 = none)
    {full : Key} (hforeign : ¬Owned cfg full) : (flushPages svc cfg 0 pages t).1 full = t full := by
  rw [Dynamo.flushPages_eq] at hnil ⊢
  apply (Dynamo.sendBatches_table hnil).2
  rintro ⟨i, ks, hks, hfull, -⟩
  exact hforeign (Dynamo.owned_of_named (List.mem_of_getElem? hks) hfull)

theorem dynamo_confined_iff {svc : Service} {t : Table}
    {pages : List (Except CacheError (List Key))} (hnonempty : cfg.keyPrefix ≠ [])
    (hscan : ScanLists svc cfg t pages) (hnil : (flushPages svc cfg 0 pages t).2 = none) :
    Confined cfg.keyPrefix t (flushPages svc cfg 0 pages t).1 ↔
      Cleared svc t (flushNames cfg pages) := by
  rw [← Dynamo.flushesAll_iff hscan]
  constructor
  · intro hconfined
    refine ⟨fun _ full howned _ => (hconfined full).1 ((owned_iff hnonempty full).mp howned), ?_⟩
    intro _
    exact hnil
  · rintro ⟨hgone, -⟩ full
    rw [← owned_iff hnonempty full]
    constructor
    · intro howned
      by_cases hitem : t full = none
      · rw [Dynamo.flushPages_eq] at hnil ⊢
        exact (Dynamo.sendBatches_gone_iff hnil).mpr (Or.inl hitem)
      · exact hgone hnil full howned hitem
    · intro hforeign
      exact flushPages_foreign hnil hforeign

end Dynamo

/-! ## Memcached -/

section Memcached

open Memcached (Addr Server State Conn memcached wire commands acquire)

/-- The address of the connection that a call gets. -/
def givenAddr (cfg : Memcached.Config) (dials : UInt32 → Addr → Bool) (S : State Server Conn) :
    Option Addr :=
  ((acquire (wire memcached) cfg dials S).1.toOption).map Prod.fst

theorem slot_flushed (s : Server) (full : Key) :
    ({ s with items := fun _ => none } : Server).slot full = none := rfl

/-- `Flush` over whole commands empties the server. -/
theorem commands_flush (s : Server) :
    (commands memcached).flush s true = (.ok (), { s with items := fun _ => none }, true) := rfl

variable {cfg : Memcached.Config} {dials : UInt32 → Addr → Bool}

/-- Over whole commands a `Flush` that returns `nil` has emptied the server of its
connection. -/
theorem flush_commands {A A' : State Server Bool}
    (h : Memcached.flush (commands memcached) cfg dials A = (some (.ok ()), A')) :
    ∃ addr alive A₁, acquire (commands memcached) cfg dials A = (.ok (addr, alive), A₁) ∧
      A'.servers = update A.servers addr { A.servers addr with items := fun _ => none } := by
  unfold Memcached.flush Memcached.exchange Memcached.withConn at h
  rcases hacquire : acquire (commands memcached) cfg dials A with ⟨e | ⟨addr, alive⟩, A₁⟩
  · rw [hacquire] at h
    cases h
  · rcases Memcached.acquire_ok hacquire with ⟨-, hservers⟩
    refine ⟨addr, alive, A₁, rfl, ?_⟩
    rw [hacquire] at h
    cases alive with
    | false => cases h
    | true =>
      dsimp only [Memcached.onServer] at h
      rw [commands_flush] at h
      have hstate := (congrArg Prod.snd h).symm
      dsimp only at hstate
      rcases Memcached.State.release_eq _ addr true false with ⟨pools, hpools⟩
      rw [hpools] at hstate
      rw [hstate, ← hservers]

/-- A `Flush` that returns `nil` has emptied the server of its connection. -/
theorem flush_wire {S S' : State Server Conn} (hclean : S.Clean)
    (h : Memcached.flush (wire memcached) cfg dials S = (some (.ok ()), S')) :
    ∃ addr, givenAddr cfg dials S = some addr ∧ addr ∈ cfg.addrs ∧
      S'.servers = update S.servers addr { S.servers addr with items := fun _ => none } := by
  have hsim : Memcached.CallSim Conn.idle (Memcached.flush (commands memcached) cfg dials)
      (Memcached.flush (wire memcached) cfg dials) :=
    Memcached.CallSim.exchange (Memcached.linkSim_wire memcached).fresh
      (Memcached.linkSim_wire memcached).flush
  have hcall := hsim (S.map Conn.alive)
  rw [hclean.map_idle, h] at hcall
  rcases hcommands : Memcached.flush (commands memcached) cfg dials (S.map Conn.alive) with ⟨r, A'⟩
  rw [hcommands] at hcall
  rcases Prod.mk.inj hcall with ⟨rfl, rfl⟩
  rcases flush_commands hcommands with ⟨addr, alive, A₁, hacquire, hservers⟩
  have hmap := Memcached.acquire_map (Memcached.linkSim_wire memcached).fresh cfg dials
    (S.map Conn.alive)
  rw [hclean.map_idle, hacquire] at hmap
  refine ⟨addr, ?_, (Memcached.acquire_ok hacquire).1, hservers⟩
  rw [givenAddr, hmap]
  rfl

/-- When `Flush` of the Memcached store is confined to its prefix. -/
theorem memcached_confined_iff {S S' : State Server Conn} (hclean : S.Clean)
    (h : Memcached.flush (wire memcached) cfg dials S = (some (.ok ()), S')) (p : Bytes) :
    (∀ addr ∈ cfg.addrs, Confined p (S.servers addr).slot (S'.servers addr).slot) ↔
      ∀ addr ∈ cfg.addrs, ∀ full, (S.servers addr).slot full ≠ none →
        (Names p full ↔ givenAddr cfg dials S = some addr) := by
  rcases flush_wire hclean h with ⟨given, hgiven, hmem, hservers⟩
  rw [hgiven]
  refine forall₂_congr fun addr haddr => ?_
  by_cases heq : addr = given
  · subst heq
    have hempty : ∀ full, (S'.servers addr).slot full = none := by
      intro full
      rw [hservers, update_self]
      exact slot_flushed _ full
    rw [confined_empty_iff hempty]
    simp only [iff_true]
  · have hsame : ∀ full, (S'.servers addr).slot full = (S.servers addr).slot full := by
      intro full
      rw [hservers, update_of_ne heq]
    rw [confined_same_iff hsame]
    have hne : ¬(some given = some addr) := fun hsome => heq (Option.some.inj hsome).symm
    simp only [hne, iff_false]
    constructor
    · intro hnone full hrecord hown
      exact hrecord (hnone full hown)
    · intro hnone full hown
      by_contra hrecord
      exact hnone full hrecord hown

end Memcached

/-! ## Main result -/

/--
`Flush` is confined to its scope under a condition on the backend.  For every non-empty prefix
and every `Flush` that returns `nil`, no key of the prefix has a record afterwards and
every other record is unchanged if and only if

- on SQL, every row belongs to the prefix;
- on DynamoDB, the service processes the deletion of every named item;
- on Memcached, an item belongs to the prefix exactly if it is on the server to which the store has
  got a connection.
-/
theorem flush_confined_iff {p : Bytes} (hp : p ≠ []) :
    (∀ (cfg : Sql.Config) (now : Instant) (t : Sql.Table), cfg.keyPrefix = p →
      (Sql.exec cfg now t .flush).2 = .done →
      (Confined p t (Sql.exec cfg now t .flush).1 ↔ ∀ full, t full ≠ none → Names p full)) ∧
    (∀ (svc : Dynamo.Service) (cfg : Dynamo.Config) (t : Dynamo.Table)
      (pages : List (Except CacheError (List Key))), cfg.keyPrefix = p →
      Dynamo.ScanLists svc cfg t pages → (Dynamo.flushPages svc cfg 0 pages t).2 = none →
      (Confined p t (Dynamo.flushPages svc cfg 0 pages t).1 ↔
        Dynamo.Cleared svc t (Dynamo.flushNames cfg pages))) ∧
    (∀ (cfg : Memcached.Config) (dials : UInt32 → Memcached.Addr → Bool)
      (S S' : Memcached.State Memcached.Server Memcached.Conn), cfg.keyPrefix = p → S.Clean →
      Memcached.flush (Memcached.wire Memcached.memcached) cfg dials S = (some (.ok ()), S') →
      ((∀ addr ∈ cfg.addrs, Confined p (S.servers addr).slot (S'.servers addr).slot) ↔
        ∀ addr ∈ cfg.addrs, ∀ full, (S.servers addr).slot full ≠ none →
          (Names p full ↔ givenAddr cfg dials S = some addr))) := by
  refine ⟨?_, ?_, ?_⟩
  · intro cfg now t _ _
    exact confined_empty_iff fun _ => rfl
  · rintro svc cfg t pages rfl hscan hnil
    exact dynamo_confined_iff hp hscan hnil
  · intro cfg dials S S' _ hclean h
    exact memcached_confined_iff hclean h p

/-! ## Two applications -/

section Samples

open Memcached (State Server Conn memcached wire)

/-- A backend with the same record under each key of a list. -/
def holding {ρ : Type} (fulls : List Key) (record : ρ) : Key → Option ρ :=
  fun full => if full ∈ fulls then some record else none

variable {full : Key}

theorem mem_of_holding {ρ : Type} {fulls : List Key} (record : ρ)
    (h : holding fulls record full ≠ none) : full ∈ fulls := by
  by_contra hne
  exact h (if_neg hne)

/-- A row that does not expire soon. -/
def sampleRow : Sql.Row := ⟨ascii "v", 9000000000000⟩

/-- An item without an expiration. -/
def sampleItem : Memcached.Item := ⟨⟨0, ascii "v", 1, by decide⟩, none⟩

/-- A server with an item under each key of a list. -/
def serverWith (fulls : List Key) : Server := ⟨1700000000, holding fulls sampleItem, 2⟩

theorem slot_serverWith {fulls : List Key} (h : (serverWith fulls).slot full ≠ none) :
    full ∈ fulls := by
  apply mem_of_holding sampleItem
  intro hnone
  apply h
  unfold Server.slot
  change ((holding fulls sampleItem) full).filter _ = none
  rw [hnone]
  rfl

/-- Three keys of the store. -/
def ownKeys : List Key := [ascii "a", ascii "b", ascii "c"].map fun key => ascii "app:" ++ key

theorem names_ownKeys (h : full ∈ ownKeys) : Names (ascii "app") full := by
  rcases List.mem_map.mp h with ⟨key, -, rfl⟩
  exact ⟨key, rfl⟩

/-- The store of `app` with three records, alone on SQL and on Memcached and with a neighbour on
DynamoDB. -/
theorem flush_confined_own :
    Confined (ascii "app") (holding ownKeys sampleRow)
      (Sql.exec (.sqlite (ascii "app")) 0 (holding ownKeys sampleRow) .flush).1 ∧
    Confined (ascii "app") (Dynamo.tableOf Dynamo.sampleKeys)
      (Dynamo.flushPages .willing Dynamo.sampleConfig 0 Dynamo.samplePages
        (Dynamo.tableOf Dynamo.sampleKeys)).1 ∧
    ∃ S', Memcached.flush (wire memcached) (Isolation.memcachedConfig (ascii "app"))
        Memcached.allDials (State.init (fun _ => serverWith ownKeys) 0) = (some (.ok ()), S') ∧
      Confined (ascii "app") (serverWith ownKeys).slot
        (S'.servers (ascii "127.0.0.1:11211")).slot := by
  have hiff := flush_confined_iff (p := ascii "app") (by decide)
  refine ⟨?_, ?_, ?_⟩
  · apply (hiff.1 (.sqlite (ascii "app")) 0 _ rfl rfl).mpr
    intro full hrecord
    exact names_ownKeys (mem_of_holding _ hrecord)
  · have hnil : (Dynamo.flushPages .willing Dynamo.sampleConfig 0 Dynamo.samplePages
        (Dynamo.tableOf Dynamo.sampleKeys)).2 = none := by decide
    exact (hiff.2.1 _ Dynamo.sampleConfig _ _ rfl Dynamo.scanLists_sample hnil).mpr
      Dynamo.cleared_sample
  · have hclean := Memcached.clean_init (fun _ => serverWith ownKeys) 0
    refine ⟨_, rfl, ?_⟩
    apply (hiff.2.2 (Isolation.memcachedConfig (ascii "app")) Memcached.allDials _ _ rfl hclean
      rfl).mpr
    · intro addr haddr full hrecord
      rw [List.mem_singleton.mp haddr]
      exact ⟨fun _ => rfl, fun _ => names_ownKeys (slot_serverWith hrecord)⟩
    · exact List.mem_singleton.mpr rfl

/-- The store of `app` removes the row and the item of `other`, and leaves an item of its
own on its second server. -/
theorem flush_removes_foreign :
    ((Sql.exec (.sqlite (ascii "app")) 0 (holding [ascii "other:k"] sampleRow) .flush).2 = .done ∧
      ¬Confined (ascii "app") (holding [ascii "other:k"] sampleRow)
        (Sql.exec (.sqlite (ascii "app")) 0 (holding [ascii "other:k"] sampleRow) .flush).1) ∧
    (∃ S', Memcached.flush (wire memcached) (Isolation.memcachedConfig (ascii "app"))
        Memcached.allDials (State.init (fun _ => serverWith [ascii "other:k"]) 0) =
          (some (.ok ()), S') ∧
      ¬Confined (ascii "app") (serverWith [ascii "other:k"]).slot
        (S'.servers (ascii "127.0.0.1:11211")).slot) ∧
    (∃ S', Memcached.flush (wire memcached)
        ⟨[ascii "10.0.0.1:11211", ascii "10.0.0.2:11211"], ascii "app", DefaultTTL.normalize 0⟩
        Memcached.allDials (State.init (fun _ => serverWith [ascii "app:k"]) 0) =
          (some (.ok ()), S') ∧
      ¬Confined (ascii "app") (serverWith [ascii "app:k"]).slot
        (S'.servers (ascii "10.0.0.2:11211")).slot) := by
  have hforeign : ¬Names (ascii "app") (ascii "other:k") := by
    rintro ⟨key, hkey⟩
    cases hkey
  refine ⟨⟨rfl, ?_⟩, ⟨_, rfl, ?_⟩, ⟨_, rfl, ?_⟩⟩
  · intro hconfined
    exact absurd ((hconfined (ascii "other:k")).2 hforeign) (by decide)
  · intro hconfined
    have hkept := congrArg Option.isSome ((hconfined (ascii "other:k")).2 hforeign)
    exact absurd hkept (by decide)
  · intro hconfined
    have hgone := congrArg Option.isSome ((hconfined (ascii "app:k")).1 ⟨ascii "k", by decide⟩)
    exact absurd hgone (by decide)

end Samples

end FlushScope
end GoforjCache
