import ResponseShape.Schema.Lookup

/-!
# The types in effect while a document is visited

A visit keeps four stacks, innermost first: the type of the selection or definition around the
present place, the type on which its fields are looked up, the type that an input value is read
at, and that type as it was written. A place whose type is not known has `none` on the stack.

Each of the three ways to go inside a construct pushes, does what is to be done inside, and pops
again.
-/

set_option autoImplicit false

namespace ResponseShape

/-- The types in effect, innermost first. -/
structure TypeScopes where
  types : List (Option TypeDefinition)
  parents : List (Option TypeDefinition)
  inputs : List (Option TypeDefinition)
  literals : List (Option TypeRef)

namespace TypeScopes

/-- No types in effect. -/
def empty : TypeScopes :=
  ⟨[], [], [], []⟩

/-- The type of the innermost construct. -/
def type? (scopes : TypeScopes) : Option TypeDefinition :=
  scopes.types.head?.join

/-- The type on which fields are looked up. -/
def parent? (scopes : TypeScopes) : Option TypeDefinition :=
  scopes.parents.head?.join

/-- The type at which the present input value is read. -/
def input? (scopes : TypeScopes) : Option TypeDefinition :=
  scopes.inputs.head?.join

/-- The type at which the present input value is read, as it was written. -/
def literal? (scopes : TypeScopes) : Option TypeRef :=
  scopes.literals.head?.join

end TypeScopes

/-- A visit under way: the types in effect, and what was noted so far. -/
structure Visit (σ : Type) where
  scopes : TypeScopes
  noted : σ

namespace Visit

variable {σ : Type}

/-- The visit after something was noted at the present place. -/
def note (visit : Visit σ) (observe : TypeScopes → σ → σ) : Visit σ :=
  { visit with noted := observe visit.scopes visit.noted }

/-- Does `inside` with the type of the given name in effect. -/
def withType (schema : Schema) (name : Option String) (inside : Visit σ → Visit σ)
    (visit : Visit σ) : Visit σ :=
  let scopes := visit.scopes
  let left := inside
    { visit with scopes := { scopes with types := name.bind schema.type? :: scopes.types } }
  { left with scopes := { left.scopes with types := left.scopes.types.tail } }

/-- Does `inside` with the present type as the one on which fields are looked up. -/
def withParent (inside : Visit σ → Visit σ) (visit : Visit σ) : Visit σ :=
  let scopes := visit.scopes
  let left := inside
    { visit with scopes := { scopes with parents := scopes.type? :: scopes.parents } }
  { left with scopes := { left.scopes with parents := left.scopes.parents.tail } }

/-- Does `inside` with input values read at the given type. -/
def withInput (schema : Schema) (type : Option TypeRef) (inside : Visit σ → Visit σ)
    (visit : Visit σ) : Visit σ :=
  let scopes := visit.scopes
  let left := inside
    { visit with
      scopes :=
        { scopes with
          inputs := type.bind (fun reference => schema.type? reference.namedType) :: scopes.inputs
          literals := type :: scopes.literals } }
  { left with
    scopes :=
      { left.scopes with
        inputs := left.scopes.inputs.tail
        literals := left.scopes.literals.tail } }

end Visit

end ResponseShape
