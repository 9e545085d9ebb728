import ComponentMarkup.Template.Basic

/-!
# Template caches

A cache keeps the result of compiling a text under a vocabulary, whether it is a template or an
error, and counts how often it was asked for a result that it had or had not. Results are told apart
by their serial numbers: the same number means the same compilation.
-/

namespace ComponentMarkup

/-- What a result depends on. -/
structure CacheKey where
  text : List Char
  chain : Identity
  arguments : Identity
deriving DecidableEq, Repr

/-- The result of one compilation. -/
structure Compilation where
  serial : Nat
  result : Except TemplateError Template

/-- Compilations by what they depend on. -/
structure TemplateCache where
  entries : Entries CacheKey Compilation
  hits : Nat
  misses : Nat

namespace TemplateCache

/-- A cache that was never asked. -/
def empty : TemplateCache :=
  ⟨[], 0, 0⟩

/-- What the compilation of a text depends on. -/
def keyFor (vocabulary : Vocabulary) (text : List Char) : CacheKey :=
  ⟨text, vocabulary.chain.id, vocabulary.arguments.id⟩

/-- The compilation of a text, made now if it was not made before. Every compilation is a miss, so
the misses number the compilations. -/
def get (cache : TemplateCache) (vocabulary : Vocabulary) (text : List Char) :
    Compilation × TemplateCache :=
  let key := keyFor vocabulary text
  match cache.entries.lookup key with
  | some c => (c, { cache with hits := cache.hits + 1 })
  | none =>
    let c := ⟨cache.misses, Template.compile vocabulary text⟩
    (c, ⟨cache.entries ++ [(key, c)], cache.hits, cache.misses + 1⟩)

/-- Forget all results. The counts are kept. -/
def clear (cache : TemplateCache) : TemplateCache :=
  { cache with entries := [] }

def size (cache : TemplateCache) : Nat :=
  cache.entries.length

end TemplateCache

end ComponentMarkup
