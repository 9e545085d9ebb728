import ComponentMarkup.Tag.Provider
import ComponentMarkup.Value.Basic

/-!
# Vocabularies

A vocabulary says what the tags and attributes of a template mean. Its chain of providers knows
where the constructors for tags are found, and its argument names say what attributes are passed as.

Chains and argument names have an identity, by which results that depend on them can be kept: one
that is made or changed has a new identity, and two of the same identity give the same answers.
-/

namespace ComponentMarkup

/-- A computation that may take new identities. -/
abbrev Fresh := StateM Identity

namespace Fresh

/-- An identity that was not given out before. -/
def identity : Fresh Identity := do
  let next ← get
  set (next + 1)
  return next

end Fresh

/-! ## Chains of providers -/

/-- Functions that know where the constructors for some tags are found. -/
structure ProviderChain where
  id : Identity
  providers : List (String → Option ConstructorPath)

namespace ProviderChain

/-- A chain that knows no tag. -/
def new : Fresh ProviderChain := do
  return ⟨← Fresh.identity, []⟩

/-- The chain with one more provider at its end. -/
def push (chain : ProviderChain) (provider : String → Option ConstructorPath) :
    Fresh ProviderChain := do
  return ⟨← Fresh.identity, chain.providers ++ [provider]⟩

def ofProviders (providers : List Provider) : Fresh ProviderChain := do
  providers.foldlM (fun chain p => chain.push p.resolve?) (← new)

/-- What the first provider that knows a tag says. -/
def resolve? (chain : ProviderChain) (tag : String) : Option ConstructorPath :=
  chain.providers.findSome? (· tag)

end ProviderChain

/-! ## Argument names -/

/-- Attributes with the arguments they are passed as. Others keep their names. -/
structure ArgumentNames where
  id : Identity
  entries : Entries String String

namespace ArgumentNames

/-- Every attribute is passed as it is called. -/
def new : Fresh ArgumentNames := do
  return ⟨← Fresh.identity, []⟩

/-- The names with one more attribute. -/
def insert (names : ArgumentNames) (attr argument : String) : Fresh ArgumentNames := do
  return ⟨← Fresh.identity, Entries.insert attr argument names.entries⟩

/-- The names for the given attributes, of which later ones replace earlier ones. -/
def ofPairs (pairs : List (String × String)) : Fresh ArgumentNames := do
  pairs.foldlM (fun names (attr, argument) => names.insert attr argument) (← new)

/-- The argument that an attribute is passed as, or a default if it is not renamed. -/
def getD (names : ArgumentNames) (attr default : String) : String :=
  (names.entries.lookup attr).getD default

def argumentFor (names : ArgumentNames) (attr : String) : String :=
  names.getD attr attr

end ArgumentNames

/-! ## Vocabularies -/

/-- What the tags and attributes of a template mean. -/
structure Vocabulary where
  chain : ProviderChain
  arguments : ArgumentNames

namespace Vocabulary

/-- A new vocabulary of the given providers and renamed attributes. -/
def make (providers : List Provider) (renames : List (String × String)) : Fresh Vocabulary := do
  let chain ← ProviderChain.ofProviders providers
  return ⟨chain, ← ArgumentNames.ofPairs renames⟩

def dash : Fresh Vocabulary :=
  make Provider.dash Library.attributeNames

/-- The vocabulary for the Dash libraries that all share who ask for no other. Its identities are
the first ones. -/
def shared : Vocabulary :=
  (dash.run 0).1

/-- The first identity that the shared vocabulary has not taken. -/
def firstIdentity : Identity :=
  (dash.run 0).2

end Vocabulary

end ComponentMarkup
