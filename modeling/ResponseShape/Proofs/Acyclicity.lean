import ResponseShape.Fragment.Cycle
import ResponseShape.Proofs.Grouping

/-!
# Accepted fragments are ranked

When no fragment reaches itself, fragments can be ranked so that every fragment that is spread in
a body has a smaller rank than the body's own (`FragmentTable.Ranked`). The ranks are found by the
search for cycles: it leaves a fragment after all fragments that are spread in its body, so the
order in which fragments are left is an order of ranks (`FragmentTable.Ordered`).

While the search is under way, every fragment that was entered has been left or is on the trail,
and what is spread in the body of a fragment on the trail is still pending, or has been left, or is
the next fragment on the trail (`FragmentTable.Searching`).

Conversely, fragments that are ranked and have distinct names are accepted
(`FragmentTable.ofDocuments_of_ranked`): the trail goes down in rank (`FragmentTable.Descends`), so
no spread closes a cycle.
-/

set_option autoImplicit false

namespace ResponseShape

namespace FragmentTable

variable {table : FragmentTable}

/-- Every fragment that is spread in the body of another has a smaller rank. -/
def Ranked (table : FragmentTable) (rank : String → Nat) : Prop :=
  ∀ name fragment, table.find? name = some fragment →
    ∀ spread ∈ fragment.spreads, (table.find? spread.name).isSome = true →
      rank spread.name < rank name

/-! ## Names in order -/

/-- Names, each standing before the names of the fragments that are spread in its body. -/
inductive Ordered (table : FragmentTable) : List String → Prop where
  | nil : Ordered table []
  | cons {name : String} {left : List String} :
      (∀ fragment, table.find? name = some fragment →
        ∀ spread ∈ fragment.spreads, (table.find? spread.name).isSome = true →
          spread.name ∈ left) →
        Ordered table left → Ordered table (name :: left)

namespace Ordered

variable {left : List String} {name : String} {fragment : FragmentDefinition}
  {spread : FragmentSpread}

theorem spread_mem (ordered : Ordered table left) (member : name ∈ left)
    (found : table.find? name = some fragment) (isSpread : spread ∈ fragment.spreads)
    (defined : (table.find? spread.name).isSome = true) : spread.name ∈ left := by
  induction ordered with
  | nil => cases member
  | cons below _ ih =>
      rcases List.mem_cons.mp member with rfl | later
      · exact List.mem_cons_of_mem _ (below fragment found spread isSpread defined)
      · exact List.mem_cons_of_mem _ (ih later)

/-- **Names in order are ranked by their places.** -/
theorem exists_rank (ordered : Ordered table left) :
    ∃ rank : String → Nat, (∀ name ∈ left, rank name < left.length) ∧
      ∀ name ∈ left, ∀ fragment, table.find? name = some fragment →
        ∀ spread ∈ fragment.spreads, (table.find? spread.name).isSome = true →
          rank spread.name < rank name := by
  induction ordered with
  | nil => exact ⟨fun _ => 0, by simp, by simp⟩
  | @cons name left below ordered ih =>
      obtain ⟨rank, bounded, ranked⟩ := ih
      by_cases before : name ∈ left
      · have known : ∀ other ∈ name :: left, other ∈ left := by
          intro other member
          rcases List.mem_cons.mp member with rfl | later
          · exact before
          · exact later
        exact ⟨rank, fun other member => Nat.lt_succ_of_lt (bounded other (known other member)),
          fun other member => ranked other (known other member)⟩
      · -- the new name is ranked above all names behind it
        obtain ⟨ranks, top, behind⟩ : ∃ ranks : String → Nat, ranks name = left.length ∧
            ∀ other ∈ left, ranks other = rank other :=
          ⟨fun other => if other = name then left.length else rank other, if_pos rfl,
            fun other later => if_neg fun same : other = name => before (same ▸ later)⟩
        refine ⟨ranks, fun other member => ?_,
          fun other member fragment found spread isSpread defined => ?_⟩
        · rcases List.mem_cons.mp member with rfl | later
          · exact top ▸ Nat.lt_succ_self _
          · exact behind other later ▸ Nat.lt_succ_of_lt (bounded other later)
        · rcases List.mem_cons.mp member with rfl | later
          · have known := below fragment found spread isSpread defined
            rw [behind _ known, top]
            exact bounded _ known
          · have known := ordered.spread_mem later found isSpread defined
            rw [behind _ known, behind other later]
            exact ranked other later fragment found spread isSpread defined

end Ordered

/-! ## The search under way -/

/-- What is spread in the bodies of the fragments on the trail is pending, was left, or is the
fragment that is entered next; `inner` is the name of that fragment, if there is one. -/
def Pending (table : FragmentTable) (left : List String) : Option String → List TrailEntry → Prop
  | _, [] => True
  | inner, entry :: trail =>
      (∀ fragment, table.find? entry.name = some fragment →
        ∀ spread ∈ fragment.spreads, (table.find? spread.name).isSome = true →
          spread ∈ entry.pending ∨ spread.name ∈ left ∨ inner = some spread.name) ∧
        Pending table left (some entry.name) trail

theorem Pending.mono {left left' : List String} {inner : Option String}
    {trail : List TrailEntry} (pending : Pending table left inner trail)
    (more : ∀ name ∈ left, name ∈ left') : Pending table left' inner trail := by
  induction trail generalizing inner with
  | nil => trivial
  | cons entry rest ih =>
      refine ⟨fun fragment found spread isSpread defined => ?_, ih pending.2⟩
      rcases pending.1 fragment found spread isSpread defined with waiting | known | next
      · exact .inl waiting
      · exact .inr (.inl (more _ known))
      · exact .inr (.inr next)

/-- A search under way: which fragments were entered, what is on the trail, and which fragments
were left, the last one first. -/
structure Searching (table : FragmentTable) (entered : List String) (trail : List TrailEntry)
    (left : List String) : Prop where
  ordered : Ordered table left
  entered : ∀ name ∈ entered, name ∈ left ∨ name ∈ trail.map TrailEntry.name
  pending : Pending table left none trail

namespace Searching

variable {entered left : List String} {trail : List TrailEntry} {name : String}
  {spread : FragmentSpread} {pending : List FragmentSpread} {fragment : FragmentDefinition}

/-- A fragment is left when nothing of its body is pending. -/
theorem leave (searching : Searching table entered (⟨name, []⟩ :: trail) left) :
    Searching table entered trail (name :: left) := by
  obtain ⟨ordered, known, here, rest⟩ := searching
  refine ⟨.cons (fun fragment found spread isSpread defined => ?_) ordered,
    fun other member => ?_, ?_⟩
  · rcases here fragment found spread isSpread defined with waiting | before | next
    · cases waiting
    · exact before
    · cases next
  · rcases known other member with before | onTrail
    · exact .inl (List.mem_cons_of_mem _ before)
    · rcases List.mem_cons.mp onTrail with rfl | later
      · exact .inl List.mem_cons_self
      · exact .inr later
  · cases trail with
    | nil => trivial
    | cons entry outer =>
        refine ⟨fun fragment found spread isSpread defined => ?_,
          rest.2.mono fun _ => List.mem_cons_of_mem _⟩
        rcases rest.1 fragment found spread isSpread defined with waiting | before | next
        · exact .inl waiting
        · exact .inr (.inl (List.mem_cons_of_mem _ before))
        · exact .inr (.inl (Option.some.inj next ▸ List.mem_cons_self))

/-- A spread is passed over when its fragment is not defined or was left before. -/
theorem pass (searching : Searching table entered (⟨name, spread :: pending⟩ :: trail) left)
    (known : (table.find? spread.name).isSome = true → spread.name ∈ left) :
    Searching table entered (⟨name, pending⟩ :: trail) left := by
  obtain ⟨ordered, isKnown, here, rest⟩ := searching
  refine ⟨ordered, isKnown, fun fragment found other isSpread defined => ?_, rest⟩
  rcases here fragment found other isSpread defined with waiting | before | next
  · rcases List.mem_cons.mp waiting with rfl | later
    · exact .inr (.inl (known defined))
    · exact .inl later
  · exact .inr (.inl before)
  · cases next

/-- A fragment is entered with its whole body pending. -/
theorem enter (searching : Searching table entered (⟨name, spread :: pending⟩ :: trail) left)
    (found : table.find? spread.name = some fragment) :
    Searching table (spread.name :: entered)
      (⟨spread.name, fragment.spreads⟩ :: ⟨name, pending⟩ :: trail) left := by
  obtain ⟨ordered, known, here, rest⟩ := searching
  refine ⟨ordered, fun other member => ?_, fun body foundBody other isSpread _ => ?_,
    fun body foundBody other isSpread defined => ?_, rest⟩
  · rcases List.mem_cons.mp member with rfl | before
    · exact .inr List.mem_cons_self
    · exact (known other before).imp_right (List.mem_cons_of_mem _)
  · obtain rfl := Option.some.inj (foundBody.symm.trans found)
    exact .inl isSpread
  · rcases here body foundBody other isSpread defined with waiting | before | next
    · rcases List.mem_cons.mp waiting with rfl | later
      · exact .inr (.inr rfl)
      · exact .inl later
    · exact .inr (.inl before)
    · cases next

end Searching

theorem notMem_of_closedCycle?_eq_none {trail : List TrailEntry} {name : String}
    (apart : closedCycle? trail name = none) : name ∉ trail.map TrailEntry.name := by
  intro member
  have reversed : (trail.reverse.map TrailEntry.name).contains name = true := by
    rw [List.map_reverse, List.contains_iff_mem, List.mem_reverse]
    exact member
  simp only [closedCycle?, reversed, if_true] at apart
  cases apart

/-- **A search that ends has left everything that it entered, in order.** -/
theorem exists_left_of_searchTrail {entered left result : List String} {trail : List TrailEntry}
    (searching : Searching table entered trail left)
    (searched : table.searchTrail entered trail = .ok result) :
    ∃ left', Ordered table left' ∧ (∀ name ∈ result, name ∈ left') ∧
      ∀ name ∈ entered, name ∈ result := by
  fun_induction table.searchTrail entered trail generalizing left with
  | case1 =>
      obtain rfl := Except.ok.inj searched
      refine ⟨left, searching.ordered, fun name member => ?_, fun _ => id⟩
      exact (searching.entered name member).elim id (fun onTrail => by cases onTrail)
  | case2 _ _ _ ih => exact ih searching.leave searched
  | case3 => cases searched
  | case4 _ _ spread _ _ _ unknown ih =>
      refine ih (searching.pass fun defined => ?_) searched
      rw [unknown] at defined
      cases defined
  | case5 entered name spread pending trail apart fragment found known ih =>
      refine ih (searching.pass fun _ => ?_) searched
      have absent := notMem_of_closedCycle?_eq_none apart
      exact (searching.entered _ (List.contains_iff_mem.mp known)).elim id
        fun onTrail => absurd onTrail absent
  | case6 entered name spread pending trail apart fragment found fresh ih =>
      obtain ⟨left', ordered, covered, kept⟩ := ih (searching.enter found) searched
      exact ⟨left', ordered, covered, fun other member =>
        kept other (List.mem_cons_of_mem _ member)⟩

/-! ## Accepted documents -/

theorem repeatedName?_eq_none_iff {seen : List String} {fragments : List FragmentDefinition} :
    repeatedName? seen fragments = none ↔
      (fragments.map FragmentDefinition.name).Nodup ∧
        ∀ fragment ∈ fragments, fragment.name ∉ seen := by
  induction fragments generalizing seen with
  | nil => simp [repeatedName?]
  | cons fragment rest ih =>
      by_cases known : fragment.name ∈ seen
      · simp [repeatedName?, known]
      · simp only [repeatedName?, List.contains_eq_mem, known, decide_false, Bool.false_eq_true,
          if_false, ih, List.map_cons, List.nodup_cons, List.mem_cons, List.mem_map]
        grind

theorem find?_eq_some_iff (distinct : (table.fragments.map FragmentDefinition.name).Nodup)
    {name : String} {fragment : FragmentDefinition} :
    table.find? name = some fragment ↔ fragment ∈ table.fragments ∧ fragment.name = name := by
  refine ⟨mem_of_find?, ?_⟩
  rintro ⟨member, rfl⟩
  exact OrderedSet.find?_key_eq distinct member

/-- The search from a fragment leaves it, in order with what was left before. -/
theorem exists_left_of_searchFrom (distinct : (table.fragments.map FragmentDefinition.name).Nodup)
    {fragment : FragmentDefinition} (member : fragment ∈ table.fragments)
    {entered left result : List String} (ordered : Ordered table left)
    (covered : ∀ name ∈ entered, name ∈ left)
    (searched : table.searchFrom entered fragment = .ok result) :
    ∃ left', Ordered table left' ∧ (∀ name ∈ result, name ∈ left') ∧
      fragment.name ∈ result ∧ ∀ name ∈ entered, name ∈ result := by
  rw [searchFrom] at searched
  split at searched
  · rename_i known
    obtain rfl := Except.ok.inj searched
    exact ⟨left, ordered, covered, List.contains_iff_mem.mp known, fun _ => id⟩
  · have start : Searching table (fragment.name :: entered)
        [⟨fragment.name, fragment.spreads⟩] left := by
      refine ⟨ordered, fun name known => ?_, fun body found spread isSpread _ => ?_, trivial⟩
      · rcases List.mem_cons.mp known with rfl | before
        · exact .inr List.mem_cons_self
        · exact .inl (covered name before)
      · have same := (find?_eq_some_iff distinct).mpr ⟨member, rfl⟩
        obtain rfl := Option.some.inj (same.symm.trans found)
        exact .inl isSpread
    obtain ⟨left', ordered', covered', kept⟩ := exists_left_of_searchTrail start searched
    exact ⟨left', ordered', covered', kept _ List.mem_cons_self,
      fun name before => kept name (List.mem_cons_of_mem _ before)⟩

/-- The search from one fragment after the other leaves all of them. -/
theorem exists_left_of_searches (distinct : (table.fragments.map FragmentDefinition.name).Nodup)
    {fragments : List FragmentDefinition} (known : ∀ fragment ∈ fragments,
      fragment ∈ table.fragments) {entered left result : List String}
    (ordered : Ordered table left) (covered : ∀ name ∈ entered, name ∈ left)
    (searched : fragments.foldlM table.searchFrom entered = .ok result) :
    ∃ left', Ordered table left' ∧ (∀ name ∈ entered, name ∈ left') ∧
      ∀ fragment ∈ fragments, fragment.name ∈ left' := by
  induction fragments generalizing entered left with
  | nil => exact ⟨left, ordered, covered, by simp⟩
  | cons fragment rest ih =>
      rw [List.foldlM_cons, bind_eq_ok_iff] at searched
      obtain ⟨between, first, later⟩ := searched
      obtain ⟨next, orderedNext, coveredNext, here, kept⟩ :=
        exists_left_of_searchFrom distinct (known fragment List.mem_cons_self) ordered covered first
      obtain ⟨left', ordered', covered', others⟩ :=
        ih (fun other member => known other (List.mem_cons_of_mem _ member)) orderedNext
          coveredNext later
      refine ⟨left', ordered', fun name before => covered' name (kept name before), ?_⟩
      intro other member
      rcases List.mem_cons.mp member with rfl | isLater
      · exact covered' _ here
      · exact others other isLater

theorem exists_ranked_of_checkAcyclic
    (distinct : (table.fragments.map FragmentDefinition.name).Nodup)
    (acyclic : table.checkAcyclic = .ok ()) : ∃ rank, table.Ranked rank := by
  rw [checkAcyclic, bind_eq_ok_iff] at acyclic
  obtain ⟨result, searched, _⟩ := acyclic
  obtain ⟨left, ordered, _, all⟩ := exists_left_of_searches distinct (fun _ => id) .nil
    (fun _ member => by cases member) searched
  obtain ⟨rank, _, ranked⟩ := ordered.exists_rank
  refine ⟨rank, fun name fragment found => ranked name ?_ fragment found⟩
  obtain ⟨member, named⟩ := mem_of_find? found
  exact named ▸ all fragment member

/-- **Accepted documents have fragments with distinct names that can be ranked.** -/
theorem ranked_of_ofDocuments {documents : List Document}
    (accepted : ofDocuments documents = .ok table) :
    table = ⟨Document.fragments documents⟩ ∧
      (table.fragments.map FragmentDefinition.name).Nodup ∧ ∃ rank, table.Ranked rank := by
  simp only [ofDocuments] at accepted
  split at accepted
  · cases accepted
  · rename_i distinct
    obtain ⟨done, acyclic, same⟩ := bind_eq_ok_iff.mp accepted
    obtain rfl := Except.ok.inj same
    have names := (repeatedName?_eq_none_iff.mp distinct).1
    exact ⟨rfl, names, exists_ranked_of_checkAcyclic names acyclic⟩

/-! ## Ranked fragments are accepted -/

/-- Everything on the trail is defined, what is pending of a body has a smaller rank than the body,
and ranks grow outwards. -/
inductive Descends (table : FragmentTable) (rank : String → Nat) : List TrailEntry → Prop where
  | nil : Descends table rank []
  | cons {name : String} {pending : List FragmentSpread} {trail : List TrailEntry} :
      (table.find? name).isSome = true →
        (∀ spread ∈ pending, (table.find? spread.name).isSome = true →
          rank spread.name < rank name) →
        (∀ entry ∈ trail, rank name < rank entry.name) → Descends table rank trail →
        Descends table rank (⟨name, pending⟩ :: trail)

namespace Descends

variable {rank : String → Nat} {trail : List TrailEntry} {name : String} {spread : FragmentSpread}
  {pending : List FragmentSpread}

theorem defined (descends : Descends table rank trail) :
    ∀ entry ∈ trail, (table.find? entry.name).isSome = true := by
  induction descends with
  | nil => exact fun entry member => nomatch member
  | cons here _ _ _ ih =>
      intro entry member
      rcases List.mem_cons.mp member with rfl | isOuter
      · exact here
      · exact ih entry isOuter

theorem tail (descends : Descends table rank (⟨name, spread :: pending⟩ :: trail)) :
    Descends table rank (⟨name, pending⟩ :: trail) := by
  cases descends with
  | cons here smaller outwards rest =>
      exact .cons here (fun other member => smaller other (List.mem_cons_of_mem _ member)) outwards
        rest

/-- **What is pending closes no cycle.** -/
theorem closedCycle?_eq_none (descends : Descends table rank (⟨name, spread :: pending⟩ :: trail)) :
    closedCycle? (⟨name, pending⟩ :: trail) spread.name = none := by
  rw [closedCycle?]
  split
  · rename_i entered
    have onTrail : spread.name ∈ (⟨name, pending⟩ :: trail).map TrailEntry.name := by
      simpa only [List.contains_iff_mem, List.map_reverse, List.mem_reverse] using entered
    obtain ⟨entry, member, same⟩ := List.mem_map.mp onTrail
    have defined := descends.tail.defined entry member
    rw [same] at defined
    cases descends with
    | cons here smaller outwards rest =>
        have below := smaller spread List.mem_cons_self defined
        rcases List.mem_cons.mp member with rfl | isOuter
        · rw [← same] at below
          exact absurd below (Nat.lt_irrefl _)
        · have above := outwards entry isOuter
          rw [same] at above
          omega
  · rfl

/-- A fragment that is pending can be entered. -/
theorem enter (ranked : table.Ranked rank)
    (descends : Descends table rank (⟨name, spread :: pending⟩ :: trail))
    {fragment : FragmentDefinition} (found : table.find? spread.name = some fragment) :
    Descends table rank (⟨spread.name, fragment.spreads⟩ :: ⟨name, pending⟩ :: trail) := by
  have defined : (table.find? spread.name).isSome = true := by
    rw [found]
    rfl
  refine .cons defined (ranked spread.name fragment found) ?_ descends.tail
  cases descends with
  | cons here smaller outwards rest =>
      have below := smaller spread List.mem_cons_self defined
      intro entry member
      rcases List.mem_cons.mp member with rfl | isOuter
      · exact below
      · have above := outwards entry isOuter
        omega

end Descends

/-- A search that goes down in rank comes to an end without a cycle. -/
theorem exists_searchTrail {rank : String → Nat} (ranked : table.Ranked rank)
    (entered : List String) (trail : List TrailEntry) (descends : Descends table rank trail) :
    ∃ result, table.searchTrail entered trail = .ok result := by
  fun_induction table.searchTrail entered trail with
  | case1 entered => exact ⟨entered, rfl⟩
  | case2 entered name trail ih =>
      cases descends with
      | cons _ _ _ rest => exact ih rest
  | case3 entered name spread pending trail via closed =>
      rw [descends.closedCycle?_eq_none] at closed
      cases closed
  | case4 entered name spread pending trail _ undefined ih => exact ih descends.tail
  | case5 entered name spread pending trail _ fragment found _ ih => exact ih descends.tail
  | case6 entered name spread pending trail _ fragment found _ ih =>
      exact ih (descends.enter ranked found)

/-- **Fragments of distinct names that can be ranked are accepted.** -/
theorem ofDocuments_of_ranked {documents : List Document} {rank : String → Nat}
    (distinct : ((Document.fragments documents).map FragmentDefinition.name).Nodup)
    (ranked : Ranked ⟨Document.fragments documents⟩ rank) :
    ofDocuments documents = .ok ⟨Document.fragments documents⟩ := by
  have searches : ∀ fragments : List FragmentDefinition,
      (∀ fragment ∈ fragments, fragment ∈ Document.fragments documents) → ∀ entered,
        ∃ result, fragments.foldlM (searchFrom ⟨Document.fragments documents⟩) entered =
          .ok result := by
    intro fragments
    induction fragments with
    | nil => exact fun _ entered => ⟨entered, rfl⟩
    | cons fragment rest ih =>
        intro known entered
        have found : find? ⟨Document.fragments documents⟩ fragment.name = some fragment :=
          (find?_eq_some_iff distinct).mpr ⟨known fragment List.mem_cons_self, rfl⟩
        have first : ∃ between, searchFrom ⟨Document.fragments documents⟩ entered fragment =
            .ok between := by
          rw [searchFrom]
          split
          · exact ⟨entered, rfl⟩
          · refine exists_searchTrail ranked _ _ (.cons ?_ (ranked _ fragment found) nofun .nil)
            rw [found]
            rfl
        obtain ⟨between, here⟩ := first
        obtain ⟨result, later⟩ := ih (fun other member =>
          known other (List.mem_cons_of_mem _ member)) between
        exact ⟨result, by rw [List.foldlM_cons, bind_eq_ok_iff]; exact ⟨between, here, later⟩⟩
  obtain ⟨result, searched⟩ := searches _ (fun _ => id) []
  have acyclic : checkAcyclic ⟨Document.fragments documents⟩ = .ok () :=
    bind_eq_ok_iff.mpr ⟨result, searched, rfl⟩
  have unrepeated := repeatedName?_eq_none_iff.mpr
    ⟨distinct, fun _ _ member => List.not_mem_nil member⟩
  simp only [ofDocuments, unrepeated, acyclic]
  rfl

/-- Documents whose fragments have distinct names and spread nothing are accepted. -/
theorem ofDocuments_of_no_spreads {documents : List Document}
    (distinct : ((Document.fragments documents).map FragmentDefinition.name).Nodup)
    (flat : ∀ fragment ∈ Document.fragments documents, fragment.spreads = []) :
    ofDocuments documents = .ok ⟨Document.fragments documents⟩ := by
  have ranked : Ranked ⟨Document.fragments documents⟩ (fun _ => 0) := by
    intro name fragment found spread isSpread
    rw [flat fragment (mem_of_find? found).1] at isSpread
    cases isSpread
  exact ofDocuments_of_ranked distinct ranked

end FragmentTable

end ResponseShape
