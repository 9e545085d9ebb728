import ComponentMarkup.Proofs.Template.Sessions
import Mathlib

/-!
# What a cache counts

A cache is asked for templates and cleared, in any order. The lookups between two clears are a
period. Main statement: in every period each distinct key is compiled once, and this is a miss; all
other lookups are hits; and what is kept are the outcomes of the first lookups of the current period,
whether they are templates or errors.
-/

namespace ComponentMarkup

variable {lookups : List Lookup}

/-- A text to be compiled under a vocabulary. -/
structure Lookup where
  vocabulary : Vocabulary
  text : List Char

namespace Lookup

/-- What the outcome of a lookup is kept under. -/
def key (l : Lookup) : CacheKey :=
  TemplateCache.keyFor l.vocabulary l.text

/-- The outcome of a lookup, if it is not known yet. -/
def outcome (l : Lookup) : Except TemplateError Template :=
  Template.compile l.vocabulary l.text

/-- The number of distinct keys that were asked for. -/
def distinct (lookups : List Lookup) : Nat :=
  (lookups.map key).toFinset.card

/-- The lookup that asked for a key first. -/
def first? (lookups : List Lookup) (k : CacheKey) : Option Lookup :=
  lookups.find? (·.key == k)

theorem distinct_concat_of_mem {l : Lookup} (h : l.key ∈ lookups.map key) :
    distinct (lookups ++ [l]) = distinct lookups := by
  have hset : ((lookups ++ [l]).map key).toFinset = (lookups.map key).toFinset := by
    ext k
    simp only [List.map_append, List.map_cons, List.map_nil, List.mem_toFinset, List.mem_append,
      List.mem_singleton]
    exact ⟨fun hk => hk.elim id fun hk => hk ▸ h, .inl⟩
  rw [distinct, hset, distinct]

theorem distinct_concat_of_notMem {l : Lookup} (h : l.key ∉ lookups.map key) :
    distinct (lookups ++ [l]) = distinct lookups + 1 := by
  have hset : ((lookups ++ [l]).map key).toFinset = insert l.key (lookups.map key).toFinset := by
    ext k
    simp only [List.map_append, List.map_cons, List.map_nil, List.mem_toFinset, List.mem_append,
      List.mem_singleton, Finset.mem_insert]
    exact or_comm
  rw [distinct, hset, Finset.card_insert_of_notMem (by simpa using h), distinct]

theorem first?_eq_none {k : CacheKey} : first? lookups k = none ↔ k ∉ lookups.map key := by
  simp [first?, List.find?_eq_none]

theorem first?_concat (lookups : List Lookup) (l : Lookup) (k : CacheKey) :
    first? (lookups ++ [l]) k = (first? lookups k).or (if l.key = k then some l else none) := by
  rw [first?, List.find?_append, ← first?, List.find?_singleton]
  simp only [beq_iff_eq]

end Lookup

/-! ## Requests -/

/-- What a cache can be asked to do. -/
inductive CacheRequest where
  | lookup (l : Lookup)
  | clear

namespace CacheRequest

/-- The lookup that is asked for. -/
def lookup? : CacheRequest → Option Lookup
  | .lookup l => some l
  | .clear => none

/-- The lookups of the periods that were ended by a clear, and of the one since then. -/
structure History where
  past : List (List Lookup)
  current : List Lookup

/-- A request is added to the current period or ends it. -/
def History.record (h : History) : CacheRequest → History
  | .lookup l => { h with current := h.current ++ [l] }
  | .clear => ⟨h.past ++ [h.current], []⟩

/-- The periods into which requests fall. -/
def history (requests : List CacheRequest) : History :=
  requests.foldl History.record ⟨[], []⟩

end CacheRequest

namespace TemplateCache

/-- The cache after a request. -/
def serve (cache : TemplateCache) : CacheRequest → TemplateCache
  | .lookup l => (cache.get l.vocabulary l.text).2
  | .clear => cache.clear

/-- The cache after requests, beginning with one that was never asked. -/
def after (requests : List CacheRequest) : TemplateCache :=
  requests.foldl serve .empty

/-! ## One request -/

/-- A cache has counted `asked` lookups, which fall into the periods of a history. -/
structure Accounts (asked : Nat) (h : CacheRequest.History) (cache : TemplateCache) : Prop where
  answered : cache.hits + cache.misses = asked
  compiled : cache.misses = (h.past.map Lookup.distinct).sum + Lookup.distinct h.current
  kept : cache.size = Lookup.distinct h.current
  outcomes : ∀ k, (cache.entries.lookup k).map Compilation.result =
    (Lookup.first? h.current k).map Lookup.outcome

section

variable {asked : Nat} {h : CacheRequest.History} {cache : TemplateCache}

/-- A cache has an outcome for exactly the keys of the current period. -/
theorem Accounts.lookup_eq_none (hc : Accounts asked h cache) {k : CacheKey} :
    cache.entries.lookup k = none ↔ k ∉ h.current.map Lookup.key := by
  rw [← Lookup.first?_eq_none, ← Option.map_eq_none_iff (f := Compilation.result), hc.outcomes,
    Option.map_eq_none_iff]

theorem Accounts.lookup (hc : Accounts asked h cache) (l : Lookup) :
    Accounts (asked + 1) (h.record (.lookup l)) (cache.serve (.lookup l)) := by
  have hanswered := hc.answered
  have hcompiled := hc.compiled
  cases hlookup : cache.entries.lookup l.key with
  | some c =>
    -- the key was asked for before, so the period has no more distinct keys than it had
    have hserve : cache.serve (.lookup l) = { cache with hits := cache.hits + 1 } :=
      congrArg Prod.snd (Session.get_of_lookup hlookup)
    have hmem : l.key ∈ h.current.map Lookup.key := by
      by_contra hnew
      cases hlookup.symm.trans (hc.lookup_eq_none.mpr hnew)
    have hsame := Lookup.distinct_concat_of_mem hmem
    rw [hserve]
    refine ⟨?_, ?_, ?_, fun k => ?_⟩
    · show cache.hits + 1 + cache.misses = asked + 1
      omega
    · show cache.misses = (h.past.map Lookup.distinct).sum + Lookup.distinct (h.current ++ [l])
      rw [hsame, hcompiled]
    · show cache.size = Lookup.distinct (h.current ++ [l])
      rw [hsame, hc.kept]
    · show _ = (Lookup.first? (h.current ++ [l]) k).map Lookup.outcome
      rw [hc.outcomes, Lookup.first?_concat]
      by_cases hk : l.key = k
      · have hsome : Lookup.first? h.current k ≠ none := by
          rw [Ne, Lookup.first?_eq_none, ← hk, not_not]
          exact hmem
        obtain ⟨earlier, hearlier⟩ := Option.ne_none_iff_exists'.mp hsome
        rw [hearlier, Option.some_or]
      · rw [if_neg hk, Option.or_none]
  | none =>
    have hserve : cache.serve (.lookup l) =
        ⟨cache.entries ++ [(l.key, ⟨cache.misses, l.outcome⟩)], cache.hits, cache.misses + 1⟩ :=
      congrArg Prod.snd (Session.get_of_not_lookup hlookup)
    have hnew := hc.lookup_eq_none.mp hlookup
    have hmore := Lookup.distinct_concat_of_notMem hnew
    rw [hserve]
    refine ⟨?_, ?_, ?_, fun k => ?_⟩
    · show cache.hits + (cache.misses + 1) = asked + 1
      omega
    · show cache.misses + 1 = (h.past.map Lookup.distinct).sum + Lookup.distinct (h.current ++ [l])
      rw [hmore, hcompiled, Nat.add_assoc]
    · show (cache.entries ++ [_]).length = Lookup.distinct (h.current ++ [l])
      rw [hmore, ← hc.kept, List.length_append, List.length_singleton, size]
    · show ((cache.entries ++ [_]).lookup k).map _ =
        (Lookup.first? (h.current ++ [l]) k).map Lookup.outcome
      rw [List.lookup_append, Option.map_or, hc.outcomes, Lookup.first?_concat, Option.map_or]
      by_cases hk : l.key = k
      · simp [hk]
      · have hbeq : (k == l.key) = false := beq_false_of_ne (Ne.symm hk)
        simp [List.lookup_cons, hbeq, hk]

theorem Accounts.clear (hc : Accounts asked h cache) :
    Accounts asked (h.record .clear) (cache.serve .clear) where
  answered := hc.answered
  compiled := by
    show cache.misses = ((h.past ++ [h.current]).map Lookup.distinct).sum + 0
    rw [List.map_append, List.sum_append, hc.compiled, List.map_singleton, List.sum_singleton,
      Nat.add_zero]
  kept := rfl
  outcomes := fun _ => rfl

/-- Every request is accounted for, whatever a lookup has to compile and however this ends. -/
theorem Accounts.serve (hc : Accounts asked h cache) (r : CacheRequest) :
    Accounts (asked + r.lookup?.toList.length) (h.record r) (cache.serve r) := by
  cases r with
  | lookup l => exact hc.lookup l
  | clear => exact hc.clear

end

/-! ## All requests -/

theorem accounts_empty : Accounts 0 ⟨[], []⟩ .empty :=
  ⟨rfl, rfl, rfl, fun _ => rfl⟩

theorem Accounts.run (hc : Accounts asked h cache) (requests : List CacheRequest) :
    Accounts (asked + (requests.filterMap CacheRequest.lookup?).length)
      (requests.foldl CacheRequest.History.record h) (requests.foldl TemplateCache.serve cache) := by
  induction requests generalizing asked h cache with
  | nil => exact hc
  | cons r rest ih =>
    have hcount : ((r :: rest).filterMap CacheRequest.lookup?).length =
        r.lookup?.toList.length + (rest.filterMap CacheRequest.lookup?).length := by
      rw [List.filterMap_cons]
      cases r with
      | lookup l => exact Nat.add_comm _ 1
      | clear => exact (Nat.zero_add _).symm
    rw [hcount, ← Nat.add_assoc]
    exact ih (hc.serve r)

theorem accounts_after (requests : List CacheRequest) :
    Accounts (requests.filterMap CacheRequest.lookup?).length (CacheRequest.history requests)
      (after requests) := by
  have hrun := accounts_empty.run requests
  rwa [Nat.zero_add] at hrun

/-- After any requests, hits and misses together are the lookups so far; the misses are the distinct
keys of every period, added up; the results kept are as many as the distinct keys since the last
clear; and kept under a key is the outcome of the first lookup since then that asked for it, be it a
template or an error. The answer to one more lookup is what is then kept under its key. -/
theorem counts_of_requests (requests : List CacheRequest) :
    (after requests).hits + (after requests).misses =
        (requests.filterMap CacheRequest.lookup?).length ∧
      (after requests).misses =
        ((CacheRequest.history requests).past.map Lookup.distinct).sum +
          Lookup.distinct (CacheRequest.history requests).current ∧
      (after requests).size = Lookup.distinct (CacheRequest.history requests).current ∧
      (∀ k, ((after requests).entries.lookup k).map Compilation.result =
        (Lookup.first? (CacheRequest.history requests).current k).map Lookup.outcome) ∧
      ∀ l : Lookup, (after (requests ++ [.lookup l])).entries.lookup l.key =
        some ((after requests).get l.vocabulary l.text).1 := by
  have hc := accounts_after requests
  refine ⟨hc.answered, hc.compiled, hc.kept, hc.outcomes, fun l => ?_⟩
  have hafter : after (requests ++ [.lookup l]) = ((after requests).get l.vocabulary l.text).2 := by
    rw [after, List.foldl_append]
    rfl
  rw [hafter]
  cases hlookup : (after requests).entries.lookup l.key with
  | some c =>
    rw [Session.get_of_lookup hlookup]
    exact hlookup
  | none =>
    rw [Session.get_of_not_lookup hlookup]
    show ((after requests).entries ++ [(l.key, _)]).lookup l.key = _
    rw [List.lookup_append, hlookup, Option.none_or]
    exact List.lookup_cons_self

end TemplateCache

end ComponentMarkup
