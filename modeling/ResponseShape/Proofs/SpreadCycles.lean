import Mathlib.Data.List.Chain
import ResponseShape.Proofs.Acyclicity
import ResponseShape.Proofs.Failures

/-!
# Which fragments are accepted

Fragments make a graph: one fragment leads to another when its body spreads the other at any depth,
below fields and inline fragments (`FragmentTable.Spreads`). Spreads of names that no fragment has
lead nowhere.

The search for cycles holds the way to the fragment that it is inside of on its trail: the body of
each fragment on the trail spreads the next one inwards, and no fragment is there twice
(`FragmentTable.Trailing`). So the part of the trail that a spread closes is a cycle of the graph
(`FragmentTable.Trailing.closesCycle`), and an error is only reported with such a cycle at hand.
Conversely a cycle cannot be ranked, and accepted fragments are ranked. Together the fragments of
documents are accepted exactly when their names differ and their graph has no cycle
(`FragmentTable.decides_ofDocuments`).
-/

set_option autoImplicit false

namespace ResponseShape

/-! ## Spreads in a body -/

/-- The spread stands in the selections, at any depth, below fields and inline fragments. -/
inductive Selection.SpreadIn (spread : FragmentSpread) : List Selection → Prop where
  | here {directives : List Directive} {rest : List Selection} :
      SpreadIn spread (.spread spread.name directives spread.position :: rest)
  | field {head : FieldHead} {span : Span} {items rest : List Selection} :
      SpreadIn spread items → SpreadIn spread (.field head span items :: rest)
  | inline {condition : Option String} {directives : List Directive} {position : Position}
      {span : Span} {items rest : List Selection} :
      SpreadIn spread items →
        SpreadIn spread (.inline condition directives position span items :: rest)
  | later {selection : Selection} {rest : List Selection} :
      SpreadIn spread rest → SpreadIn spread (selection :: rest)

namespace Selection

theorem SpreadIn.mem_listSpreads {spread : FragmentSpread} {items : List Selection}
    (within : SpreadIn spread items) : spread ∈ listSpreads items := by
  induction within with
  | here => simp [listSpreads, spreads]
  | field _ ih => simp [listSpreads, spreads, ih]
  | inline _ ih => simp [listSpreads, spreads, ih]
  | later _ ih => simp [listSpreads, ih]

mutual

theorem spreadIn_of_mem_spreads {spread : FragmentSpread} (rest : List Selection) :
    ∀ selection : Selection, spread ∈ selection.spreads → SpreadIn spread (selection :: rest)
  | .field _ _ items, member => by
      rw [spreads] at member
      exact .field (spreadIn_of_mem_listSpreads items member)
  | .spread _ _ _, member => by
      rw [spreads, List.mem_singleton] at member
      subst member
      exact .here
  | .inline _ _ _ _ items, member => by
      rw [spreads] at member
      exact .inline (spreadIn_of_mem_listSpreads items member)

theorem spreadIn_of_mem_listSpreads {spread : FragmentSpread} :
    ∀ items : List Selection, spread ∈ listSpreads items → SpreadIn spread items
  | [], member => by
      rw [listSpreads] at member
      cases member
  | selection :: rest, member => by
      rw [listSpreads, List.mem_append] at member
      rcases member with here | later
      · exact spreadIn_of_mem_spreads rest selection here
      · exact .later (spreadIn_of_mem_listSpreads rest later)

end

/-- **The spreads of a body are those that stand in it at any depth.** -/
theorem mem_listSpreads_iff {spread : FragmentSpread} {items : List Selection} :
    spread ∈ listSpreads items ↔ SpreadIn spread items :=
  ⟨spreadIn_of_mem_listSpreads items, SpreadIn.mem_listSpreads⟩

end Selection

open Selection

namespace FragmentTable

variable {table : FragmentTable}

/-! ## The graph of fragments -/

/-- A body of the name `outer` spreads `inner`, which is the name of a fragment. -/
def Spreads (table : FragmentTable) (outer inner : String) : Prop :=
  (∃ body ∈ table.fragments, body.name = outer ∧
    ∃ position, SpreadIn ⟨inner, position⟩ body.items) ∧
  ∃ fragment ∈ table.fragments, fragment.name = inner

/-- No fragment reaches itself. -/
def Acyclic (table : FragmentTable) : Prop :=
  ∀ name, ¬ Relation.TransGen table.Spreads name name

/-- The fragments `via` are a cycle: they start with `name`, none is there twice, the body of each
spreads the next one, and the body of the last spreads `name` at the position. -/
structure ClosesCycle (table : FragmentTable) (name : String) (via : List String)
    (position : Position) : Prop where
  first : via.head? = some name
  nodup : via.Nodup
  chain : via.IsChain table.Spreads
  closes : ∃ last, via.getLast? = some last ∧ ∃ body ∈ table.fragments, body.name = last ∧
    SpreadIn ⟨name, position⟩ body.items
  defined : ∃ fragment ∈ table.fragments, fragment.name = name

/-- A fragment on a cycle reaches itself. -/
theorem ClosesCycle.not_acyclic {name : String} {via : List String} {position : Position}
    (cycle : table.ClosesCycle name via position) : ¬ table.Acyclic := by
  intro acyclic
  obtain ⟨last, isLast, body, isBody, named, spreads⟩ := cycle.closes
  have present : via ≠ [] := by
    intro empty
    simp [empty] at isLast
  have around := List.relationReflTransGen_of_exists_isChain via cycle.chain present
  have starts : via.head present = name :=
    Option.some.inj ((List.head?_eq_some_head present).symm.trans cycle.first)
  have ends : via.getLast present = last :=
    Option.some.inj ((List.getLast?_eq_some_getLast present).symm.trans isLast)
  rw [starts, ends] at around
  exact acyclic name (.tail' around ⟨⟨body, isBody, named, position, spreads⟩, cycle.defined⟩)

/-- Ranked fragments have no cycle. -/
theorem Ranked.acyclic {rank : String → Nat} (ranked : table.Ranked rank)
    (distinct : (table.fragments.map FragmentDefinition.name).Nodup) : table.Acyclic := by
  have smaller : ∀ outer inner, table.Spreads outer inner → rank inner < rank outer := by
    rintro _ _ ⟨⟨body, isBody, rfl, position, spreads⟩, fragment, isFragment, rfl⟩
    have found := (find?_eq_some_iff distinct).mpr ⟨isBody, rfl⟩
    have defined := (find?_eq_some_iff distinct).mpr ⟨isFragment, rfl⟩
    apply ranked body.name body found ⟨fragment.name, position⟩ (mem_listSpreads_iff.mpr spreads)
    simp [defined]
  have below : ∀ outer inner, Relation.TransGen table.Spreads outer inner →
      rank inner < rank outer := by
    intro outer inner reaches
    induction reaches with
    | single spreads => exact smaller _ _ spreads
    | tail _ spreads ih => exact (smaller _ _ spreads).trans ih
  intro name reaches
  exact Nat.lt_irrefl _ (below name name reaches)

/-! ## The trail of the search -/

/-- What a spread closes is the part of the trail from its fragment on, outermost first. -/
theorem exists_parted_of_closedCycle? {trail : List TrailEntry} {name : String}
    {via : List String} (closed : closedCycle? trail name = some via) :
    ∃ before after, (trail.map TrailEntry.name).reverse = before ++ via ∧ via = name :: after := by
  rw [closedCycle?, List.map_reverse] at closed
  split at closed
  · rename_i entered
    obtain ⟨before, after, parted, fresh⟩ :=
      List.eq_append_cons_of_mem (List.contains_iff_mem.mp entered)
    have isVia : via = name :: after := by
      rw [← Option.some.inj closed, parted, List.dropWhile_append_of_pos]
      · simp
      · intro other isBefore
        simpa using fun same : other = name => fresh (same ▸ isBefore)
    exact ⟨before, after, isVia ▸ parted, isVia⟩
  · cases closed

/-- The trail of a search: what is pending of a fragment stands in its body, no fragment is on the
trail twice, and the body of each fragment spreads the next one inwards. -/
structure Trailing (table : FragmentTable) (trail : List TrailEntry) : Prop where
  bodies : ∀ entry ∈ trail, ∃ body ∈ table.fragments, body.name = entry.name ∧
    ∀ spread ∈ entry.pending, SpreadIn spread body.items
  nodup : (trail.map TrailEntry.name).Nodup
  chain : (trail.map TrailEntry.name).IsChain (fun inner outer => table.Spreads outer inner)

namespace Trailing

variable {name : String} {spread : FragmentSpread} {pending : List FragmentSpread}
  {trail : List TrailEntry}

theorem single {fragment : FragmentDefinition} (member : fragment ∈ table.fragments) :
    Trailing table [⟨fragment.name, fragment.spreads⟩] := by
  refine ⟨?_, by simp, by simp⟩
  intro entry isEntry
  obtain rfl := List.mem_singleton.mp isEntry
  refine ⟨fragment, member, rfl, ?_⟩
  intro spread isSpread
  exact mem_listSpreads_iff.mp isSpread

/-- The trail without its innermost fragment. -/
theorem tail {entry : TrailEntry} (trailing : Trailing table (entry :: trail)) :
    Trailing table trail := by
  obtain ⟨bodies, nodup, chain⟩ := trailing
  refine ⟨?_, (List.nodup_cons.mp nodup).2, chain.tail⟩
  intro other isOther
  exact bodies other (List.mem_cons_of_mem _ isOther)

/-- The trail after a spread was looked at. -/
theorem pass (trailing : Trailing table (⟨name, spread :: pending⟩ :: trail)) :
    Trailing table (⟨name, pending⟩ :: trail) := by
  obtain ⟨bodies, nodup, chain⟩ := trailing
  refine ⟨?_, nodup, chain⟩
  intro entry isEntry
  rcases List.mem_cons.mp isEntry with rfl | isOuter
  · obtain ⟨body, isBody, named, spreads⟩ := bodies _ List.mem_cons_self
    exact ⟨body, isBody, named, fun other later => spreads other (List.mem_cons_of_mem _ later)⟩
  · exact bodies entry (List.mem_cons_of_mem _ isOuter)

/-- The trail after a fragment was entered that is not on it. -/
theorem enter (trailing : Trailing table (⟨name, spread :: pending⟩ :: trail))
    (apart : closedCycle? (⟨name, pending⟩ :: trail) spread.name = none)
    {fragment : FragmentDefinition} (found : table.find? spread.name = some fragment) :
    Trailing table (⟨spread.name, fragment.spreads⟩ :: ⟨name, pending⟩ :: trail) := by
  obtain ⟨member, same⟩ := mem_of_find? found
  obtain ⟨body, isBody, named, spreads⟩ := trailing.bodies _ List.mem_cons_self
  have steps : table.Spreads name spread.name :=
    ⟨⟨body, isBody, named, spread.position, spreads spread List.mem_cons_self⟩,
      fragment, member, same⟩
  obtain ⟨bodies, nodup, chain⟩ := trailing.pass
  refine ⟨?_, ?_, ?_⟩
  · intro entry isEntry
    rcases List.mem_cons.mp isEntry with rfl | isOuter
    · refine ⟨fragment, member, same, ?_⟩
      intro other isSpread
      exact mem_listSpreads_iff.mp isSpread
    · exact bodies entry isOuter
  · exact List.nodup_cons.mpr ⟨notMem_of_closedCycle?_eq_none apart, nodup⟩
  · exact List.isChain_cons_cons.mpr ⟨steps, chain⟩

/-- **A spread of a fragment on the trail closes a cycle.** -/
theorem closesCycle (trailing : Trailing table (⟨name, spread :: pending⟩ :: trail))
    {via : List String} (closed : closedCycle? (⟨name, pending⟩ :: trail) spread.name = some via) :
    table.ClosesCycle spread.name via spread.position := by
  obtain ⟨body, isBody, named, spreads⟩ := trailing.bodies _ List.mem_cons_self
  obtain ⟨bodies, nodup, chain⟩ := trailing.pass
  obtain ⟨before, after, outwards, isVia⟩ := exists_parted_of_closedCycle? closed
  have inner : via <:+ (((⟨name, pending⟩ : TrailEntry) :: trail).map TrailEntry.name).reverse := by
    rw [outwards]
    exact List.suffix_append before via
  have isLast : via.getLast? = some name := by
    have ends := congrArg List.getLast? outwards
    simpa [isVia] using ends.symm
  have onTrail : spread.name ∈ ((⟨name, pending⟩ : TrailEntry) :: trail).map TrailEntry.name := by
    rw [← List.mem_reverse, outwards, isVia]
    simp
  obtain ⟨entry, isEntry, same⟩ := List.mem_map.mp onTrail
  obtain ⟨fragment, isFragment, entryNamed, _⟩ := bodies entry isEntry
  refine ⟨?_, ?_, ?_, ?_, ?_⟩
  · simp [isVia]
  · exact inner.sublist.nodup ((List.reverse_perm _).nodup_iff.mpr nodup)
  · exact (List.isChain_reverse.mpr chain).suffix inner
  · exact ⟨name, isLast, body, isBody, named, spreads spread List.mem_cons_self⟩
  · exact ⟨fragment, isFragment, entryNamed.trans same⟩

end Trailing

/-! ## What the search reports -/

open Outcome

/-- The error reports a cycle of the fragments. -/
def ReportsCycle (table : FragmentTable) (error : AnalysisError) : Prop :=
  ∃ name via position, error = .fragmentCycle name via position ∧
    table.ClosesCycle name via position

/-- **A search fails with a cycle.** -/
theorem reportsCycle_searchTrail (entered : List String) (trail : List TrailEntry)
    (trailing : Trailing table trail) :
    FailsWith table.ReportsCycle (table.searchTrail entered trail) := by
  fun_induction searchTrail table entered trail with
  | case1 entered => exact failsWith_ok entered
  | case2 _ _ _ ih => exact ih trailing.tail
  | case3 _ _ spread _ _ via closed =>
      exact failsWith_error ⟨spread.name, via, spread.position, rfl, trailing.closesCycle closed⟩
  | case4 _ _ _ _ _ _ _ ih => exact ih trailing.pass
  | case5 _ _ _ _ _ _ _ _ _ ih => exact ih trailing.pass
  | case6 _ _ _ _ _ apart fragment found _ ih => exact ih (trailing.enter apart found)

theorem reportsCycle_searches (fragments : List FragmentDefinition)
    (known : ∀ fragment ∈ fragments, fragment ∈ table.fragments) (entered : List String) :
    FailsWith table.ReportsCycle (fragments.foldlM table.searchFrom entered) := by
  induction fragments generalizing entered with
  | nil => exact failsWith_ok entered
  | cons fragment rest ih =>
      rw [List.foldlM_cons]
      apply FailsWith.bind
      · rw [searchFrom]
        split
        · exact failsWith_ok entered
        · exact reportsCycle_searchTrail _ _ (.single (known fragment List.mem_cons_self))
      · intro between _
        exact ih (fun other member => known other (List.mem_cons_of_mem _ member)) between

theorem reportsCycle_checkAcyclic : FailsWith table.ReportsCycle table.checkAcyclic := by
  rw [checkAcyclic]
  apply (reportsCycle_searches table.fragments (fun _ => id) []).bind
  intro result _
  exact failsWith_ok ()

/-- **The name that is reported is the first that an earlier fragment has.** -/
theorem repeatedName?_eq_some {seen : List String} {fragments : List FragmentDefinition}
    {name : String} (repeated : repeatedName? seen fragments = some name) :
    ∃ before fragment after, fragments = before ++ fragment :: after ∧ fragment.name = name ∧
      (name ∈ seen ∨ name ∈ before.map FragmentDefinition.name) ∧
      (before.map FragmentDefinition.name).Nodup ∧
      ∀ other ∈ before, other.name ∉ seen := by
  induction fragments generalizing seen with
  | nil => simp [repeatedName?] at repeated
  | cons first rest ih =>
      rw [repeatedName?] at repeated
      split at repeated
      · rename_i known
        obtain rfl := Option.some.inj repeated
        exact ⟨[], first, rest, rfl, rfl, .inl (List.contains_iff_mem.mp known), by simp, by simp⟩
      · rename_i fresh
        rw [List.contains_iff_mem] at fresh
        obtain ⟨before, fragment, after, rfl, named, known, distinct, unseen⟩ := ih repeated
        refine ⟨first :: before, fragment, after, rfl, named, ?_, ?_, ?_⟩
        · simpa [or_comm, or_assoc, or_left_comm] using known
        · rw [List.map_cons, List.nodup_cons]
          refine ⟨?_, distinct⟩
          intro isLater
          obtain ⟨other, isOther, same⟩ := List.mem_map.mp isLater
          exact unseen other isOther (same ▸ List.mem_cons_self)
        · intro other isOther
          rcases List.mem_cons.mp isOther with rfl | later
          · exact fresh
          · exact fun known => unseen other later (List.mem_cons_of_mem _ known)

/-! ## The verdict -/

section Documents

variable (documents : List Document)

theorem ofDocuments_of_repeated {name : String}
    (repeated : repeatedName? [] (Document.fragments documents) = some name) :
    ofDocuments documents = .error (.duplicateFragmentName name) := by
  simp only [ofDocuments, repeated]
  rfl

theorem reportsCycle_ofDocuments
    (distinct : ((Document.fragments documents).map FragmentDefinition.name).Nodup) :
    FailsWith (ReportsCycle ⟨Document.fragments documents⟩) (ofDocuments documents) := by
  have unrepeated : repeatedName? [] (Document.fragments documents) = none :=
    repeatedName?_eq_none_iff.mpr ⟨distinct, fun _ _ => List.not_mem_nil⟩
  simp only [ofDocuments, unrepeated]
  apply reportsCycle_checkAcyclic.bind
  intro _ _
  exact failsWith_ok _

/-- **Fragments are accepted exactly when their names differ and none reaches itself.** A repeated
name is reported whether there is a cycle or not, and the name is the first that an earlier fragment
has. What is reported as a cycle is one. -/
theorem decides_ofDocuments :
    ((∃ table, ofDocuments documents = .ok table) ↔
      ((Document.fragments documents).map FragmentDefinition.name).Nodup ∧
        Acyclic ⟨Document.fragments documents⟩) ∧
    (¬ ((Document.fragments documents).map FragmentDefinition.name).Nodup →
      ∃ before fragment after, Document.fragments documents = before ++ fragment :: after ∧
        fragment.name ∈ before.map FragmentDefinition.name ∧
        (before.map FragmentDefinition.name).Nodup ∧
        ofDocuments documents = .error (.duplicateFragmentName fragment.name)) ∧
    (((Document.fragments documents).map FragmentDefinition.name).Nodup →
      ¬ Acyclic ⟨Document.fragments documents⟩ →
        ∃ name via position, ofDocuments documents = .error (.fragmentCycle name via position)) ∧
    ∀ name via position, ofDocuments documents = .error (.fragmentCycle name via position) →
      ClosesCycle ⟨Document.fragments documents⟩ name via position := by
  have reported : ¬ ((Document.fragments documents).map FragmentDefinition.name).Nodup →
      ∃ name, repeatedName? [] (Document.fragments documents) = some name := by
    intro repeated
    rw [← Option.isSome_iff_exists, ← Option.ne_none_iff_isSome]
    intro unrepeated
    exact repeated (repeatedName?_eq_none_iff.mp unrepeated).1
  have accepted : (∃ table, ofDocuments documents = .ok table) →
      ((Document.fragments documents).map FragmentDefinition.name).Nodup ∧
        Acyclic ⟨Document.fragments documents⟩ := by
    rintro ⟨table, accepted⟩
    obtain ⟨rfl, distinct, rank, ranked⟩ := ranked_of_ofDocuments accepted
    exact ⟨distinct, ranked.acyclic distinct⟩
  refine ⟨⟨accepted, ?_⟩, ?_, ?_, ?_⟩
  · rintro ⟨distinct, acyclic⟩
    cases outcome : ofDocuments documents with
    | ok table => exact ⟨table, rfl⟩
    | error error =>
        obtain ⟨_, _, _, _, cycle⟩ := reportsCycle_ofDocuments documents distinct error outcome
        exact absurd acyclic cycle.not_acyclic
  · intro repeated
    obtain ⟨name, isRepeated⟩ := reported repeated
    obtain ⟨before, fragment, after, parted, rfl, known, distinct, _⟩ :=
      repeatedName?_eq_some isRepeated
    refine ⟨before, fragment, after, parted, ?_, distinct, ofDocuments_of_repeated _ isRepeated⟩
    simpa using known
  · intro distinct cyclic
    cases outcome : ofDocuments documents with
    | ok table => exact absurd (accepted ⟨table, outcome⟩).2 cyclic
    | error error =>
        obtain ⟨name, via, position, rfl, _⟩ :=
          reportsCycle_ofDocuments documents distinct error outcome
        exact ⟨name, via, position, rfl⟩
  · intro name via position failed
    by_cases distinct : ((Document.fragments documents).map FragmentDefinition.name).Nodup
    · obtain ⟨_, _, _, same, cycle⟩ := reportsCycle_ofDocuments documents distinct _ failed
      obtain ⟨rfl, rfl, rfl⟩ := AnalysisError.fragmentCycle.inj same
      exact cycle
    · obtain ⟨other, isRepeated⟩ := reported distinct
      rw [ofDocuments_of_repeated documents isRepeated] at failed
      cases failed

end Documents

end FragmentTable

end ResponseShape
