import GoforjCache.Dynamo.Store
import GoforjCache.Foundation.Noninterference
import GoforjCache.Memcached.Sharing
import GoforjCache.Redis.Store
import GoforjCache.Sql.Store

/-!
# Drivers - Two prefixes on one backend

Two stores with prefixes of their own share one backend.  The second one is invisible to the first
one when the results of the first one are the same in every run and in the run without the calls of
the second one.

The full key is `prefix + ":" + key`, and prefixes and keys may contain the separator.  Two
stores have no full key in common if and only if neither prefix with the separator is an initial
part of the other one with the separator.  The stores on Redis, SQL and DynamoDB are isolated
exactly then.  The stores on Memcached are isolated then if the keys are one word.

Main results:

- Theorem `prefixes_isolate_iff`: when the second store is invisible to the first one.
- Theorem `nested_prefix_leaks`: the first store returns a value that it never stored.
-/

namespace GoforjCache
namespace Isolation

open Foundation Noninterference

/-! ## Full keys -/

/-- Neither prefix with the separator is an initial part of the other one. -/
def Separate (p q : Bytes) : Prop :=
  ¬(p ++ ascii ":") <+: (q ++ ascii ":") ∧ ¬(q ++ ascii ":") <+: (p ++ ascii ":")

instance (p q : Bytes) : Decidable (Separate p q) := inferInstanceAs (Decidable (_ ∧ _))

/-- The full keys of a prefix. -/
def Names (p : Bytes) (full : Key) : Prop := ∃ key, p ++ ascii ":" ++ key = full

theorem Separate.disjoint {p q : Bytes} (h : Separate p q) (full : Key) (hp : Names p full) :
    ¬Names q full := by
  rintro ⟨key', hq⟩
  rcases hp with ⟨key, hp⟩
  have hfirst : (p ++ ascii ":") <+: full := ⟨key, hp⟩
  have hsecond : (q ++ ascii ":") <+: full := ⟨key', hq⟩
  rcases List.prefix_or_prefix_of_prefix hfirst hsecond with hle | hle
  · exact h.1 hle
  · exact h.2 hle

/-- Without separate prefixes two keys meet, at a prefix with the separator. -/
theorem exists_common_name {p q : Bytes} (h : ¬Separate p q) :
    ∃ key key', p ++ ascii ":" ++ key = q ++ ascii ":" ++ key' ∧
      (p ++ ascii ":" ++ key = q ++ ascii ":" ∨ p ++ ascii ":" ++ key = p ++ ascii ":") := by
  by_cases hle : (p ++ ascii ":") <+: (q ++ ascii ":")
  · rcases hle with ⟨key, hkey⟩
    exact ⟨key, [], by rw [hkey, List.append_nil], Or.inl hkey⟩
  · have hge : (q ++ ascii ":") <+: (p ++ ascii ":") := by
      by_contra hge
      exact h ⟨hle, hge⟩
    rcases hge with ⟨key', hkey'⟩
    exact ⟨[], key', by rw [hkey', List.append_nil], Or.inr (List.append_nil _)⟩

/-! ## Isolation -/

section Isolated

variable {σ ε ρ : Type}

/-- The results of our calls are those of the run without the others. -/
def Isolated (step : σ → ε → σ × ρ) (ours : ε → Bool) (admits : ε → Prop) (s : σ) : Prop :=
  ∀ es : List ε, (∀ e ∈ es, admits e) →
    observed step ours s es = observed step ours s (es.filter ours)

variable {step : σ → ε → σ × ρ} {ours : ε → Bool} {admits : ε → Prop} {s : σ}

/-- One call of the other store that changes the result of one of ours. -/
theorem not_isolated {e e' : ε} (he : ours e = true) (he' : ours e' = false) (hadmits : admits e)
    (hadmits' : admits e') (h : (step (step s e').1 e).2 ≠ (step s e).2) :
    ¬Isolated step ours admits s := by
  intro hisolated
  have heq := hisolated [e', e] (by simp [hadmits, hadmits'])
  simp only [List.filter_cons, he, he', if_true, Bool.false_eq_true, if_false, List.filter_nil,
    observed_cons_of_watched he, observed_cons_of_not_watched he', List.cons.injEq] at heq
  exact h heq.1

end Isolated

/-- A call through one of the two stores, and how the backend behaves during it. -/
structure Call (ε : Type) where
  ours : Bool
  op : Op
  env : ε

/-- Two stores that share a backend. -/
def shared {σ ε ρ : Type} (first second : Call ε → σ → σ × ρ) (s : σ) (c : Call ε) : σ × ρ :=
  if c.ours then first c s else second c s

section Shared

variable {σ ν ρ ε : Type}

/-- Two stores on a table whose calls are local to the full keys of their prefixes. -/
theorem isolated_of_local {p q : Bytes} (h : Separate p q)
    {first second : Call ε → (Key → ν) → (Key → ν) × ρ}
    (hfirst : ∀ c, c.op ≠ .flush → Local (Names p) (first c))
    (hsecond : ∀ c, c.op ≠ .flush → Local (Names q) (second c)) (t : Key → ν) :
    Isolated (shared first second) Call.ours (fun c => c.op ≠ .flush) t := by
  intro calls hcalls
  have hours : ∀ c ∈ calls, c.ours = true → Local (Names p) fun t => shared first second t c := by
    intro c hc hours
    refine (hfirst c (hcalls c hc)).of_eq fun t => ?_
    rw [shared, hours, if_pos rfl]
  have htheirs : ∀ c ∈ calls, c.ours = false →
      Local (Names q) fun t => shared first second t c := by
    intro c hc hours
    refine (hsecond c (hcalls c hc)).of_eq fun t => ?_
    rw [shared, hours, if_neg Bool.false_ne_true]
  exact observed_eq_of_local hours htheirs h.disjoint t

/-- The other store writes a value, and ours finds something else than before. -/
theorem not_isolated_of_get_set {first second : Call ε → σ → σ × ρ} {s : σ} {key key' : Key}
    {value : Bytes} {ttl : Duration} {env : ε} {hit miss : ρ}
    (hhit : (first ⟨true, .get key, env⟩ (second ⟨false, .set key' value ttl, env⟩ s).1).2 = hit)
    (hmiss : (first ⟨true, .get key, env⟩ s).2 = miss) (hne : hit ≠ miss) :
    ¬Isolated (shared first second) Call.ours (fun c => c.op ≠ .flush) s := by
  have hours : Call.ours (⟨true, .get key, env⟩ : Call ε) = true := rfl
  have htheirs : Call.ours (⟨false, .set key' value ttl, env⟩ : Call ε) = false := rfl
  have hget : Op.get key ≠ .flush := Op.noConfusion
  have hset : Op.set key' value ttl ≠ .flush := Op.noConfusion
  refine not_isolated hours htheirs hget hset ?_
  rw [← hhit, ← hmiss] at hne
  exact hne

end Shared

/-! ## Redis -/

/-- A lifetime of one second. -/
def oneSecond : Duration := 1000000000

section Redis

/-- A call of a store on Redis. -/
def redisCall (cfg : Redis.Config) (c : Call (Redis.Service × Instant)) : Redis.Effect Res :=
  Redis.exec c.env.1 cfg c.env.2 c.op

/-- Stores with these prefixes on one Redis server. -/
def RedisIsolated (p q : Bytes) : Prop :=
  ∀ first second : Redis.Config, first.keyPrefix = p → second.keyPrefix = q →
    ∀ t, Isolated (shared (redisCall first) (redisCall second)) Call.ours (fun c => c.op ≠ .flush) t

theorem redis_isolated {p q : Bytes} (h : Separate p q) : RedisIsolated p q := by
  rintro first second rfl rfl t
  have hlocal : ∀ (cfg : Redis.Config) (c : Call (Redis.Service × Instant)), c.op ≠ .flush →
      Local (Names cfg.keyPrefix) (redisCall cfg c) :=
    fun cfg c hop => Redis.exec_local hop fun key _ => ⟨key, rfl⟩
  exact isolated_of_local h (hlocal first) (hlocal second) t

/-- A store with a client and the default lifetime. -/
def redisConfig (p : Bytes) : Redis.Config := ⟨.plain, p, DefaultTTL.normalize 0⟩

/-- A value is found under another store's name for the same full key. -/
theorem redis_get_set {cfg cfg' : Redis.Config} (hcfg : cfg.client = .plain)
    (hcfg' : cfg'.client = .plain) {key key' : Key}
    (hname : Redis.cacheKey cfg key = Redis.cacheKey cfg' key') (t : Redis.Keyspace) :
    (redisCall cfg ⟨true, .get key, .willing, 0⟩
      (redisCall cfg' ⟨false, .set key' [] oneSecond, .willing, 0⟩ t).1).2 =
        .ok (.value (some [])) := by
  have hentry : Redis.setEntry 0 [] (cfg'.defaultTTL.resolve oneSecond) = ⟨[], some 1000⟩ := by
    rw [cfg'.defaultTTL.resolve_of_pos (by decide)]
    rfl
  have hlive : (Redis.Entry.mk [] (some 1000)).live 0 = true := by decide
  simp only [redisCall, Redis.exec, Redis.Effect.map, Redis.set, Redis.get,
    Redis.Config.withClient, hcfg, hcfg', Redis.Service.command, Redis.Service.willing,
    Redis.setCommand, Redis.getCommand, Redis.onKey, Redis.Keyspace.find, hname, hentry,
    Function.update_self, Option.filter_some, hlive, if_true, Option.map_some, Except.map]

theorem redis_leaks {p q : Bytes} (h : ¬Separate p q) : ¬RedisIsolated p q := by
  intro hisolated
  rcases exists_common_name h with ⟨key, key', hkey, _⟩
  have hname : Redis.cacheKey (redisConfig p) key = Redis.cacheKey (redisConfig q) key' := hkey
  have hhit := redis_get_set rfl rfl hname fun _ => none
  have hmiss : (redisCall (redisConfig p) ⟨true, .get key, .willing, 0⟩ fun _ => none).2 =
      .ok (.value none) := rfl
  exact not_isolated_of_get_set hhit hmiss (by simp)
    (hisolated (redisConfig p) (redisConfig q) rfl rfl _)

end Redis

/-! ## SQL -/

section Sql

/-- A call of a store on an SQL table. -/
def sqlCall (cfg : Sql.Config) (c : Call Instant) (t : Sql.Table) : Sql.Table × Res :=
  Sql.exec cfg c.env t c.op

/-- Stores with these prefixes on one SQL table. -/
def SqlIsolated (p q : Bytes) : Prop :=
  ∀ first second : Sql.Config, first.keyPrefix = p → second.keyPrefix = q →
    ∀ t, Isolated (shared (sqlCall first) (sqlCall second)) Call.ours (fun c => c.op ≠ .flush) t

theorem sql_cacheKey {cfg : Sql.Config} (h : cfg.keyPrefix ≠ []) (key : Key) :
    Sql.cacheKey cfg key = cfg.keyPrefix ++ ascii ":" ++ key :=
  if_neg h

theorem sql_isolated {p q : Bytes} (hp : p ≠ []) (hq : q ≠ []) (h : Separate p q) :
    SqlIsolated p q := by
  rintro first second rfl rfl t
  have hlocal : ∀ cfg : Sql.Config, cfg.keyPrefix ≠ [] → ∀ c : Call Instant, c.op ≠ .flush →
      Local (Names cfg.keyPrefix) (sqlCall cfg c) :=
    fun cfg hne c hop =>
      Sql.exec_local hop fun key _ => ⟨key, (sql_cacheKey hne key).symm⟩
  exact isolated_of_local h (hlocal first hp) (hlocal second hq) t

/-- A value is found under another store's name for the same full key. -/
theorem sql_get_set {cfg cfg' : Sql.Config} (hcfg : ∀ st k, cfg.refuses st k = none)
    (hcfg' : ∀ st k, cfg'.refuses st k = none) {key key' : Key}
    (hname : Sql.cacheKey cfg key = Sql.cacheKey cfg' key') (t : Sql.Table) :
    (sqlCall cfg ⟨true, .get key, 0⟩ (sqlCall cfg' ⟨false, .set key' [] oneSecond, 0⟩ t).1).2 =
      .value (some []) := by
  have hexpiry : Sql.setExpiry cfg' 0 oneSecond = 1000 := by
    rw [Sql.setExpiry, cfg'.defaultTTL.resolve_of_pos (by decide)]
    rfl
  have hlive : (Sql.Row.mk [] 1000).expired 0 = false := by decide
  simp only [sqlCall, Sql.exec, Sql.set, Sql.upsertRow, Sql.get, Sql.selectRow,
    Sql.Config.statement, hcfg, hcfg', hname, Function.update_self, hexpiry, hlive,
    Bool.false_eq_true, if_false, Res.ofExcept]

theorem sql_leaks {p q : Bytes} (hp : p ≠ []) (hq : q ≠ []) (h : ¬Separate p q) :
    ¬SqlIsolated p q := by
  intro hisolated
  rcases exists_common_name h with ⟨key, key', hkey, _⟩
  have hname :
      Sql.cacheKey (Sql.Config.sqlite p) key = Sql.cacheKey (Sql.Config.sqlite q) key' := by
    rw [sql_cacheKey (show (Sql.Config.sqlite p).keyPrefix ≠ [] from hp),
      sql_cacheKey (show (Sql.Config.sqlite q).keyPrefix ≠ [] from hq)]
    exact hkey
  have hhit := sql_get_set (fun _ _ => rfl) (fun _ _ => rfl) hname fun _ => none
  have hmiss : (sqlCall (Sql.Config.sqlite p) ⟨true, .get key, 0⟩ fun _ => none).2 =
      .value none := rfl
  exact not_isolated_of_get_set hhit hmiss (by simp)
    (hisolated (Sql.Config.sqlite p) (Sql.Config.sqlite q) rfl rfl _)

end Sql

/-! ## DynamoDB -/

section Dynamo

/-- A call of a store on a DynamoDB table. -/
def dynamoCall (cfg : Dynamo.Config) (c : Call (Dynamo.Service × Instant)) (t : Dynamo.Table) :
    Dynamo.Table × Res :=
  Dynamo.exec c.env.1 [] cfg c.env.2 t c.op

/-- Stores with these prefixes on one DynamoDB table. -/
def DynamoIsolated (p q : Bytes) : Prop :=
  ∀ first second : Dynamo.Config, first.keyPrefix = p → second.keyPrefix = q →
    ∀ t, Isolated (shared (dynamoCall first) (dynamoCall second)) Call.ours
      (fun c => c.op ≠ .flush) t

theorem dynamo_cacheKey {cfg : Dynamo.Config} (h : cfg.keyPrefix ≠ []) (key : Key) :
    Dynamo.cacheKey cfg key = cfg.keyPrefix ++ ascii ":" ++ key :=
  if_neg h

theorem dynamo_isolated {p q : Bytes} (hp : p ≠ []) (hq : q ≠ []) (h : Separate p q) :
    DynamoIsolated p q := by
  rintro first second rfl rfl t
  have hlocal : ∀ cfg : Dynamo.Config, cfg.keyPrefix ≠ [] →
      ∀ c : Call (Dynamo.Service × Instant), c.op ≠ .flush →
        Local (Names cfg.keyPrefix) (dynamoCall cfg c) :=
    fun cfg hne c hop =>
      Dynamo.exec_local hop fun key _ => ⟨key, (dynamo_cacheKey hne key).symm⟩
  exact isolated_of_local h (hlocal first hp) (hlocal second hq) t

/-- A value is found under another store's name for the same full key. -/
theorem dynamo_get_set {cfg cfg' : Dynamo.Config} {key key' : Key}
    (hname : Dynamo.cacheKey cfg key = Dynamo.cacheKey cfg' key') (t : Dynamo.Table) :
    (dynamoCall cfg ⟨true, .get key, .willing, 0⟩
      (dynamoCall cfg' ⟨false, .set key' [] oneSecond, .willing, 0⟩ t).1).2 = .value (some []) := by
  have hitem : Dynamo.setItem cfg' 0 [] oneSecond = ⟨some [], some 1000⟩ := by
    rw [Dynamo.setItem, cfg'.defaultTTL.resolve_of_pos (by decide)]
    rfl
  have hlive : (Dynamo.Attributes.mk (some []) (some 1000)).expired 0 = false := by decide
  simp only [dynamoCall, Dynamo.exec, Dynamo.set, Dynamo.get, Dynamo.Service.willing, hname,
    Function.update_self, hitem, hlive, Bool.false_eq_true, if_false, Res.ofExcept]

/-- A store with the default lifetime. -/
def dynamoConfig (p : Bytes) : Dynamo.Config := ⟨p, DefaultTTL.normalize 0⟩

theorem dynamo_leaks {p q : Bytes} (hp : p ≠ []) (hq : q ≠ []) (h : ¬Separate p q) :
    ¬DynamoIsolated p q := by
  intro hisolated
  rcases exists_common_name h with ⟨key, key', hkey, _⟩
  have hname : Dynamo.cacheKey (dynamoConfig p) key = Dynamo.cacheKey (dynamoConfig q) key' := by
    rw [dynamo_cacheKey (show (dynamoConfig p).keyPrefix ≠ [] from hp),
      dynamo_cacheKey (show (dynamoConfig q).keyPrefix ≠ [] from hq)]
    exact hkey
  have hhit := dynamo_get_set hname fun _ => none
  have hmiss : (dynamoCall (dynamoConfig p) ⟨true, .get key, .willing, 0⟩ fun _ => none).2 =
      .value none := rfl
  exact not_isolated_of_get_set hhit hmiss (by simp)
    (hisolated (dynamoConfig p) (dynamoConfig q) rfl rfl _)

end Dynamo

/-! ## Memcached -/

section Memcached

open Memcached (TwoStores SharedEvent OneWord)

/-- Stores with these prefixes on the same servers, with one-word keys. -/
def MemcachedIsolated (p q : Bytes) : Prop :=
  ∀ first second : Memcached.Config, first.keyPrefix = p → second.keyPrefix = q →
    ∀ servers rr rr', Isolated (TwoStores.step first second) SharedEvent.ours
      (fun e => e.Admissible first second) (.init servers rr rr')

theorem memcached_cacheKey {cfg : Memcached.Config} (h : cfg.keyPrefix ≠ []) (key : Key) :
    cfg.cacheKey key = cfg.keyPrefix ++ ascii ":" ++ key := by
  rw [Memcached.Config.cacheKey, if_neg h, List.append_assoc]
  rfl

theorem memcached_isolated {p q : Bytes} (hp : p ≠ []) (hq : q ≠ []) (h : Separate p q) :
    MemcachedIsolated p q := by
  rintro first second rfl rfl servers rr rr' es hes
  have hnames : ∀ cfg : Memcached.Config, cfg.keyPrefix ≠ [] →
      ∀ key, Names cfg.keyPrefix (cfg.cacheKey key) :=
    fun cfg hne key => ⟨key, (memcached_cacheKey hne key).symm⟩
  exact Memcached.observed_eq_of_disjoint (hnames first hp)
    (fun key hkey => h.disjoint _ hkey (hnames second hq key)) servers rr rr' hes

theorem oneWord_of_printable {p : Bytes} (h : Words.Printable p) : OneWord (p ++ ascii ":") := by
  have hprintable : Words.Printable (p ++ ascii ":") := by
    intro b hb
    rcases List.mem_append.mp hb with hb | hb
    · exact h b hb
    · rw [List.mem_singleton.mp hb]
      decide
  refine ⟨?_, ?_, ?_⟩
  · intro hspace
    exact absurd (hprintable 32 hspace).1 (by decide)
  · intro hnewline
    exact absurd (hprintable 10 hnewline).1 (by decide)
  · rw [Words.fields_of_printable hprintable (by simp [ascii])]
    rfl

/-- A store with one address. -/
def memcachedConfig (p : Bytes) : Memcached.Config :=
  ⟨[ascii "127.0.0.1:11211"], p, DefaultTTL.normalize 0⟩

theorem memcached_leaks {p q : Bytes} (hp : p ≠ []) (hq : q ≠ []) (hp' : Words.Printable p)
    (hq' : Words.Printable q) (h : ¬Separate p q) : ¬MemcachedIsolated p q := by
  intro hisolated
  rcases exists_common_name h with ⟨key, key', hkey, hfull⟩
  have hfirst := memcached_cacheKey (show (memcachedConfig p).keyPrefix ≠ [] from hp) key
  have hsecond := memcached_cacheKey (show (memcachedConfig q).keyPrefix ≠ [] from hq) key'
  have hname := (hfirst.trans hkey).trans hsecond.symm
  have hword : OneWord ((memcachedConfig p).cacheKey key) := by
    rw [hfirst]
    rcases hfull with hfull | hfull
    · exact hfull.symm ▸ oneWord_of_printable hq'
    · rw [show (memcachedConfig p).keyPrefix = p from rfl, hfull]
      exact oneWord_of_printable hp'
  have hhit := Memcached.get_after_other_set rfl rfl hname hword
  have hmiss := @Memcached.get_alone _ (memcachedConfig q) _ _ rfl hword
  have hget : SharedEvent.Admissible (memcachedConfig p) (memcachedConfig q)
      (.call true (.get key) 0 Memcached.allDials) :=
    ⟨trivial, Memcached.oneWordKeys_single rfl hword⟩
  have hset : SharedEvent.Admissible (memcachedConfig p) (memcachedConfig q)
      (.call false (.set key' [] Memcached.oneSecond) 0 Memcached.allDials) :=
    ⟨trivial, Memcached.oneWordKeys_single rfl (hname ▸ hword)⟩
  refine not_isolated rfl rfl hget hset ?_
    (hisolated (memcachedConfig p) (memcachedConfig q) rfl rfl (fun _ => Memcached.sampleServer) 0
      0)
  rw [hhit, hmiss]
  simp

end Memcached

/-! ## Main result -/

/-- Two stores with nonempty prefixes on one backend, and every run of calls other than
`Flush`, with arbitrary keys, at arbitrary instants and with any failures of the backend.  On
Redis, SQL and DynamoDB the results of the first store are those of the run without the calls of
the second one if and only if the prefixes are separate.  On Memcached, with one-word keys and
without `LockRelease`, this holds if they are separate, and only then if the prefixes are
printable. -/
theorem prefixes_isolate_iff {p q : Bytes} (hp : p ≠ []) (hq : q ≠ []) :
    (RedisIsolated p q ↔ Separate p q) ∧ (SqlIsolated p q ↔ Separate p q) ∧
      (DynamoIsolated p q ↔ Separate p q) ∧ (Separate p q → MemcachedIsolated p q) ∧
      (Words.Printable p → Words.Printable q → MemcachedIsolated p q → Separate p q) := by
  refine ⟨⟨?_, redis_isolated⟩, ⟨?_, sql_isolated hp hq⟩, ⟨?_, dynamo_isolated hp hq⟩,
    memcached_isolated hp hq, ?_⟩
  · exact fun hisolated => by_contra fun h => redis_leaks h hisolated
  · exact fun hisolated => by_contra fun h => sql_leaks hp hq h hisolated
  · exact fun hisolated => by_contra fun h => dynamo_leaks hp hq h hisolated
  · exact fun hp' hq' hisolated => by_contra fun h => memcached_leaks hp hq hp' hq' h hisolated

/-- Two prefixes that do not meet. -/
theorem prefixes_isolate_orders :
    RedisIsolated (ascii "billing:v1") (ascii "orders:v1") ∧
      SqlIsolated (ascii "billing:v1") (ascii "orders:v1") ∧
      DynamoIsolated (ascii "billing:v1") (ascii "orders:v1") ∧
      MemcachedIsolated (ascii "billing:v1") (ascii "orders:v1") := by
  have hseparate : Separate (ascii "billing:v1") (ascii "orders:v1") := by decide
  rcases @prefixes_isolate_iff (ascii "billing:v1") (ascii "orders:v1") (by decide) (by decide)
    with ⟨hredis, hsql, hdynamo, hmemcached, -⟩
  exact ⟨hredis.mpr hseparate, hsql.mpr hseparate, hdynamo.mpr hseparate, hmemcached hseparate⟩

/-- The store with the longer prefix stores a value, and the other one reads a key that it never
wrote. -/
def leak {ε : Type} (env : ε) : List (Call ε) :=
  [⟨false, .set (ascii "x") (ascii "theirs") 0, env⟩, ⟨true, .get (ascii "v1:x"), env⟩]

/-- The same on Memcached. -/
def memcachedLeak : List Memcached.SharedEvent :=
  [.call false (.set (ascii "x") (ascii "theirs") 0) 0 Memcached.allDials,
    .call true (.get (ascii "v1:x")) 0 Memcached.allDials]

/-- The key `x` of the store with the prefix `billing:v1` is the key `v1:x` of the
store with the prefix `billing`.  Without the first call `Get` finds nothing. -/
theorem nested_prefix_leaks :
    (ascii "billing" ≠ ascii "billing:v1") ∧
      (observed (shared (redisCall (redisConfig (ascii "billing")))
            (redisCall (redisConfig (ascii "billing:v1")))) Call.ours (fun _ => none)
            (leak (.willing, 0)) = [.ok (.value (some (ascii "theirs")))] ∧
        observed (shared (redisCall (redisConfig (ascii "billing")))
            (redisCall (redisConfig (ascii "billing:v1")))) Call.ours (fun _ => none)
            ((leak (.willing, 0)).filter Call.ours) = [.ok (.value none)]) ∧
      (observed (shared (sqlCall (.sqlite (ascii "billing")))
            (sqlCall (.sqlite (ascii "billing:v1")))) Call.ours (fun _ => none) (leak 0) =
          [.value (some (ascii "theirs"))] ∧
        observed (shared (sqlCall (.sqlite (ascii "billing")))
            (sqlCall (.sqlite (ascii "billing:v1")))) Call.ours (fun _ => none)
            ((leak 0).filter Call.ours) = [.value none]) ∧
      (observed (shared (dynamoCall (dynamoConfig (ascii "billing")))
            (dynamoCall (dynamoConfig (ascii "billing:v1")))) Call.ours (fun _ => none)
            (leak (.willing, 0)) = [.value (some (ascii "theirs"))] ∧
        observed (shared (dynamoCall (dynamoConfig (ascii "billing")))
            (dynamoCall (dynamoConfig (ascii "billing:v1")))) Call.ours (fun _ => none)
            ((leak (.willing, 0)).filter Call.ours) = [.value none]) ∧
      (observed (Memcached.TwoStores.step (memcachedConfig (ascii "billing"))
            (memcachedConfig (ascii "billing:v1"))) Memcached.SharedEvent.ours
            (.init (fun _ => Memcached.sampleServer) 0 0) memcachedLeak =
          [some (some (.ok (.value (some (ascii "theirs")))))] ∧
        observed (Memcached.TwoStores.step (memcachedConfig (ascii "billing"))
            (memcachedConfig (ascii "billing:v1"))) Memcached.SharedEvent.ours
            (.init (fun _ => Memcached.sampleServer) 0 0)
            (memcachedLeak.filter Memcached.SharedEvent.ours) =
          [some (some (.ok (.value none)))]) := by
  refine ⟨by decide, ⟨?_, ?_⟩, ⟨?_, ?_⟩, ⟨?_, ?_⟩, ⟨?_, ?_⟩⟩ <;> rfl

end Isolation
end GoforjCache
