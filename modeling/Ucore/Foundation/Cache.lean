import Mathlib.Order.BooleanAlgebra.Set
import Mathlib.Logic.Relation

/-!
# A cache over changing memory

A memory answers lookups and a cache keeps answers. The cache may take in a current answer or lose one at
any time, also while an operation on the memory is at work. Some operations flush keys. A sequence of
operations `Flushes` when it flushes every key after the last change of its answer; then the cache is
coherent whenever nothing is pending.
-/

namespace Ucore.Foundation

/-- What can be seen of the memory while an operation is at work, what the operation leaves behind, and
the keys it flushes. -/
structure Operations (Mem Key Op : Type*) where
  seen : Op → Mem → Mem → Prop
  result : Op → Mem → Mem
  flushed : Op → Set Key
  seen_trans : ∀ {op mem mem' mem''}, seen op mem mem' → seen op mem' mem'' → seen op mem mem''
  result_seen : ∀ {op mem mem'}, seen op mem mem' → result op mem' = result op mem

/-- A memory with a cache, and the operations still to be done. -/
structure Cached (Mem Key Value Op : Type*) where
  mem : Mem
  cache : Set (Key × Value)
  pending : List Op

variable {Mem Key Value Op : Type*}

/-- The memory that is left by all operations of the list. -/
def Operations.outcome (operations : Operations Mem Key Op) (mem : Mem) (ops : List Op) : Mem :=
  ops.foldl (fun mem op ↦ operations.result op mem) mem

section Steps

variable (operations : Operations Mem Key Op) (lookup : Mem → Key → Option Value)

inductive Cached.Step : Cached Mem Key Value Op → Cached Mem Key Value Op → Prop
  | load {cached : Cached Mem Key Value Op} {key : Key} {value : Value}
      (hlookup : lookup cached.mem key = some value) :
      Step cached { cached with cache := insert (key, value) cached.cache }
  | evict {cached : Cached Mem Key Value Op} {kept : Set (Key × Value)}
      (hkept : kept ⊆ cached.cache) : Step cached { cached with cache := kept }
  | work {cached : Cached Mem Key Value Op} {op : Op} {ops : List Op} {mem' : Mem}
      (hpending : cached.pending = op :: ops) (hseen : operations.seen op cached.mem mem') :
      Step cached { cached with mem := mem' }
  | finish {cached : Cached Mem Key Value Op} {op : Op} {ops : List Op}
      (hpending : cached.pending = op :: ops) :
      Step cached ⟨operations.result op cached.mem,
        {entry ∈ cached.cache | entry.1 ∉ operations.flushed op}, ops⟩

/-- The entries of all keys but the stale ones are current answers. -/
def Coherent (stale : Set Key) (mem : Mem) (cache : Set (Key × Value)) : Prop :=
  ∀ entry ∈ cache, entry.1 ∉ stale → lookup mem entry.1 = some entry.2

/-- The answers for all keys but the given ones are the same. -/
def SameAnswers (keys : Set Key) (mem mem' : Mem) : Prop :=
  ∀ key ∉ keys, lookup mem' key = lookup mem key

/-- From a memory for which the entries of `stale` may be wrong, the operations change answers of keys
that they flush afterwards, and they flush `stale`. -/
inductive Flushes : Set Key → Mem → List Op → Prop
  | done {mem : Mem} : Flushes ∅ mem []
  | next {stale keys : Set Key} {mem : Mem} {op : Op} {ops : List Op} (hstale : stale ⊆ keys)
      (hseen : ∀ mem', operations.seen op mem mem' → SameAnswers lookup keys mem mem')
      (hresult : SameAnswers lookup keys mem (operations.result op mem))
      (hrest : Flushes (keys \ operations.flushed op) (operations.result op mem) ops) :
      Flushes stale mem (op :: ops)

/-- What is cached wrongly now will be flushed. -/
def Cached.Settling (cached : Cached Mem Key Value Op) : Prop :=
  ∃ stale, Coherent lookup stale cached.mem cached.cache ∧
    Flushes operations lookup stale cached.mem cached.pending

end Steps

variable {operations : Operations Mem Key Op} {lookup : Mem → Key → Option Value}
  {stale stale' : Set Key} {mem mem' : Mem} {cache : Set (Key × Value)} {ops ops' : List Op}
  {cached cached' : Cached Mem Key Value Op}

theorem Coherent.change (h : Coherent lookup stale mem cache) (hsub : stale ⊆ stale')
    (hsame : SameAnswers lookup stale' mem mem') : Coherent lookup stale' mem' cache := by
  intro entry hentry hkey
  rw [hsame entry.1 hkey]
  exact h entry hentry fun hstale ↦ hkey (hsub hstale)

theorem Coherent.flush (h : Coherent lookup stale mem cache) (keys : Set Key) :
    Coherent lookup (stale \ keys) mem {entry ∈ cache | entry.1 ∉ keys} := by
  intro entry hentry hkey
  exact h entry hentry.1 fun hstale ↦ hkey ⟨hstale, hentry.2⟩

/-! ## Sequences of operations -/

theorem Operations.outcome_append : operations.outcome mem (ops ++ ops') =
    operations.outcome (operations.outcome mem ops) ops' := List.foldl_append

theorem Flushes.append (h : Flushes operations lookup stale mem ops)
    (h' : Flushes operations lookup ∅ (operations.outcome mem ops) ops') :
    Flushes operations lookup stale mem (ops ++ ops') := by
  induction h with
  | done => exact h'
  | next hstale hseen hresult _ ih => exact .next hstale hseen hresult (ih h')

/-- An operation that changes no answer. -/
theorem Flushes.keep {op : Op}
    (hseen : ∀ mem', operations.seen op mem mem' → SameAnswers lookup ∅ mem mem')
    (hresult : SameAnswers lookup ∅ mem (operations.result op mem))
    (hrest : Flushes operations lookup ∅ (operations.result op mem) ops) :
    Flushes operations lookup ∅ mem (op :: ops) := by
  refine .next subset_rfl hseen hresult ?_
  rwa [Set.empty_sdiff]

/-! ## Runs -/

/-- In the middle of an operation, what is still to be done has not changed. -/
theorem Flushes.work {op : Op} (h : Flushes operations lookup stale mem (op :: ops))
    (hseen : operations.seen op mem mem') :
    ∃ keys, stale ⊆ keys ∧ SameAnswers lookup keys mem mem' ∧
      Flushes operations lookup keys mem' (op :: ops) := by
  cases h with
  | @next _ keys _ _ _ hstale hsame hresult hrest =>
    refine ⟨keys, hstale, hsame mem' hseen, .next subset_rfl (fun mem'' hseen' key hkey ↦ ?_) ?_ ?_⟩
    · calc
        lookup mem'' key = lookup mem key :=
          hsame mem'' (operations.seen_trans hseen hseen') key hkey
        _ = lookup mem' key := (hsame mem' hseen key hkey).symm
    · intro key hkey
      rw [operations.result_seen hseen, hresult key hkey, hsame mem' hseen key hkey]
    · rwa [operations.result_seen hseen]

theorem Cached.Step.settling (hstep : Cached.Step operations lookup cached cached')
    (h : cached.Settling operations lookup) : cached'.Settling operations lookup := by
  obtain ⟨stale, hcoherent, hflushes⟩ := h
  cases hstep with
  | load hlookup =>
    refine ⟨stale, fun entry hentry hkey ↦ ?_, hflushes⟩
    rcases hentry with rfl | hentry
    · exact hlookup
    · exact hcoherent entry hentry hkey
  | evict hkept => exact ⟨stale, fun entry hentry ↦ hcoherent entry (hkept hentry), hflushes⟩
  | work hpending hseen =>
    rw [hpending] at hflushes
    obtain ⟨keys, hstale, hsame, hflushes⟩ := hflushes.work hseen
    refine ⟨keys, hcoherent.change hstale hsame, ?_⟩
    dsimp only
    rwa [hpending]
  | finish hpending =>
    rw [hpending] at hflushes
    cases hflushes with
    | next hstale _ hresult hrest => exact ⟨_, (hcoherent.change hstale hresult).flush _, hrest⟩

/-- What all pending operations leave behind does not depend on how far they are. -/
theorem Cached.Step.outcome (hstep : Cached.Step operations lookup cached cached') :
    operations.outcome cached'.mem cached'.pending =
      operations.outcome cached.mem cached.pending := by
  cases hstep with
  | load | evict => rfl
  | work hpending hseen =>
    dsimp only
    rw [hpending, Operations.outcome, Operations.outcome, List.foldl_cons, List.foldl_cons,
      operations.result_seen hseen]
  | finish hpending => rw [hpending, Operations.outcome, Operations.outcome, List.foldl_cons]

theorem Cached.Settling.coherent (h : cached.Settling operations lookup)
    (hidle : cached.pending = []) : Coherent lookup ∅ cached.mem cached.cache := by
  obtain ⟨stale, hcoherent, hflushes⟩ := h
  rw [hidle] at hflushes
  cases hflushes
  exact hcoherent

/-- Operations can be started when nothing is pending. -/
theorem Cached.Settling.start (h : cached.Settling operations lookup) (hidle : cached.pending = [])
    (hops : Flushes operations lookup ∅ cached.mem ops) :
    Cached.Settling operations lookup { cached with pending := ops } :=
  ⟨∅, h.coherent hidle, hops⟩

/-- The pending operations can always be done. -/
theorem Cached.exists_finish (mem : Mem) (cache : Set (Key × Value)) (ops : List Op) :
    ∃ cache', Relation.ReflTransGen (Cached.Step operations lookup) ⟨mem, cache, ops⟩
      ⟨operations.outcome mem ops, cache', []⟩ := by
  induction ops generalizing mem cache with
  | nil => exact ⟨cache, .refl⟩
  | cons op ops ih =>
    obtain ⟨cache', hsteps⟩ := ih (operations.result op mem)
      {entry ∈ cache | entry.1 ∉ operations.flushed op}
    exact ⟨cache', .head (.finish rfl) hsteps⟩

end Ucore.Foundation
