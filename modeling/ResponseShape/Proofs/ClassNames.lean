import ResponseShape.Text.ClassName

/-!
# Class names are made word by word

The words of two names with a separator between them are the words of the one followed by the words
of the other (`words_append_separator`), and everything about words follows from this. A separator
at an end of a name belongs to no word, and a run of separators is as good as one.

A class name is its words one after the other, each capitalized. Capitalizing takes a word to a
word: the case mappings send a character to at least one character and never to a separator, because
no entry of their tables does (`isWord_upper`, `isWord_lower`). So the class name of a name that has
a word is not empty and has no separators, and the exception for names without a word is not met.
That is why class names add up over separators (`className_laws`).
-/

set_option autoImplicit false

namespace ResponseShape.Text

/-- The characters are those of a word: there is one, and none of them is a separator. -/
structure IsWord (characters : List Char) : Prop where
  ne_nil : characters ≠ []
  plain : ∀ character ∈ characters, isSeparator character = false

theorem isWord_iff {characters : List Char} :
    IsWord characters ↔ characters ≠ [] ∧ characters.any isSeparator = false := by
  simp only [List.any_eq_false, Bool.not_eq_true]
  exact ⟨fun isWord => ⟨isWord.ne_nil, isWord.plain⟩, fun both => ⟨both.1, both.2⟩⟩

instance (characters : List Char) : Decidable (IsWord characters) :=
  decidable_of_iff _ isWord_iff.symm

theorem isSeparator_iff {character : Char} :
    isSeparator character = true ↔ character = '_' ∨ character = '-' := by
  rw [isSeparator, Bool.or_eq_true, beq_iff_eq, beq_iff_eq]

/-! ## Case mappings -/

/-- No code point between the ends of the range is mapped to the character. -/
def CaseRange.Misses (range : CaseRange) (character : Char) : Prop :=
  range.last + range.offset < character.toNat ∨ character.toNat < range.first + range.offset

instance (range : CaseRange) (character : Char) : Decidable (range.Misses character) :=
  inferInstanceAs (Decidable (_ ∨ _))

/-- A character that the range misses is no image of its code points. This leaves the character of
code 0 out, which also stands for numbers that are no codes. -/
theorem CaseRange.image_ne {range : CaseRange} {codePoint : Nat} {character : Char}
    (missed : range.Misses character) (positive : 0 < character.toNat)
    (covered : range.covers codePoint = true) : range.image codePoint ≠ character := by
  intro same
  have code : character.toNat = Int.toNat (codePoint + range.offset) := by
    by_cases valid : (Int.toNat (codePoint + range.offset)).isValidChar
    · rw [← same]
      exact congrArg Char.toNat (dif_pos valid)
    · have invalid : range.image codePoint = Char.ofNat 0 := dif_neg valid
      rw [← same, invalid] at positive
      exact absurd positive (Nat.lt_irrefl 0)
  simp only [covers, Bool.and_eq_true, decide_eq_true_eq] at covered
  rw [Misses] at missed
  omega

namespace CaseTable

/-- Every entry of the table maps to a word. -/
structure MakesWords (table : CaseTable) : Prop where
  expansions : ∀ expansion ∈ table.expansions, IsWord expansion.characters
  ranges : ∀ range ∈ table.ranges, range.Misses '_' ∧ range.Misses '-'

/-- Such a table maps every character that is not a separator to a word. -/
theorem MakesWords.isWord_map {table : CaseTable} (makes : table.MakesWords) {character : Char}
    (plain : isSeparator character = false) : IsWord (table.map character) := by
  rw [map]
  split
  · rename_i expansion found
    exact makes.expansions expansion (List.mem_of_find?_eq_some found)
  · split
    · rename_i range found
      obtain ⟨underscore, dash⟩ := makes.ranges range (List.mem_of_find?_eq_some found)
      have covered := List.find?_some found
      refine ⟨List.cons_ne_nil _ _, fun image member => ?_⟩
      obtain rfl := List.mem_singleton.mp member
      rw [← Bool.not_eq_true, isSeparator_iff, not_or]
      exact ⟨CaseRange.image_ne underscore (by decide) covered,
        CaseRange.image_ne dash (by decide) covered⟩
    · refine ⟨List.cons_ne_nil _ _, fun same member => ?_⟩
      rw [List.mem_singleton.mp member, plain]

theorem makesWords_upper : MakesWords ⟨upperExpansions, upperRanges⟩ :=
  ⟨by decide +kernel, by decide +kernel⟩

theorem makesWords_lower : MakesWords ⟨lowerExpansions, lowerRanges⟩ :=
  ⟨by decide +kernel, by decide +kernel⟩

end CaseTable

theorem isWord_upper {character : Char} (plain : isSeparator character = false) :
    IsWord (upper character) :=
  CaseTable.makesWords_upper.isWord_map plain

theorem isWord_lower {character : Char} (plain : isSeparator character = false) :
    IsWord (lower character) :=
  CaseTable.makesWords_lower.isWord_map plain

/-- **A capitalized word is a word.** -/
theorem isWord_capitalize {word : List Char} (isWord : IsWord word) : IsWord (capitalize word) := by
  cases word with
  | nil => exact absurd rfl isWord.ne_nil
  | cons first rest =>
      have initial := isWord_upper (isWord.plain first List.mem_cons_self)
      have others : ∀ character ∈ rest, isSeparator character = false :=
        fun character member => isWord.plain character (List.mem_cons_of_mem _ member)
      refine ⟨List.append_ne_nil_of_left_ne_nil initial.ne_nil _, fun character member => ?_⟩
      rcases List.mem_append.mp member with atStart | later
      · exact initial.plain character atStart
      · split at later
        · obtain ⟨original, isOriginal, lowered⟩ := List.mem_flatMap.mp later
          exact (isWord_lower (others original isOriginal)).plain character lowered
        · exact others character later

/-! ## Words -/

section Words

variable {separator : Char} {word found name run : List Char}

/-- A separator ends the word that was being read, and what follows is read afresh. -/
theorem wordsFrom_append_separator (separates : isSeparator separator = true)
    (word before after : List Char) :
    wordsFrom word (before ++ separator :: after) = wordsFrom word before ++ words after := by
  -- the word that was being read is general, because it grows with every character
  induction before generalizing word with
  | nil => cases word <;> simp [wordsFrom, words, separates]
  | cons character before ih =>
      simp only [List.cons_append, wordsFrom, ih]
      -- only a separator after a word puts a word in front of the others
      split
      · split
        · rfl
        · rw [List.cons_append]
      · rfl

/-- What is not a separator stands in the words, in its order. -/
theorem flatten_wordsFrom (word name : List Char) :
    (wordsFrom word name).flatten =
      word ++ name.filter (fun character => !isSeparator character) := by
  induction name generalizing word with
  | nil => cases word <;> simp [wordsFrom]
  | cons character rest ih =>
      rw [wordsFrom]
      cases separates : isSeparator character with
      | true => cases word <;> simp [ih, separates]
      | false => simp [ih, separates]

theorem ne_nil_of_mem_wordsFrom (member : found ∈ wordsFrom word name) : found ≠ [] := by
  induction name generalizing word with
  | nil =>
      cases word with
      | nil => exact absurd member List.not_mem_nil
      | cons first others =>
          obtain rfl := List.mem_singleton.mp member
          exact List.cons_ne_nil first others
  | cons character rest ih =>
      rw [wordsFrom] at member
      split at member
      · cases word with
        | nil => exact ih member
        | cons first others =>
            rcases List.mem_cons.mp member with rfl | later
            · exact List.cons_ne_nil first others
            · exact ih later
      · exact ih member

/-- **The words of a name are words.** -/
theorem isWord_of_mem_words (member : found ∈ words name) : IsWord found := by
  refine ⟨ne_nil_of_mem_wordsFrom member, fun character inside => ?_⟩
  have within : character ∈ (words name).flatten := List.mem_flatten_of_mem member inside
  rw [words, flatten_wordsFrom, List.nil_append, List.mem_filter, Bool.not_eq_true'] at within
  exact within.2

/-- A name without words is made of separators. -/
theorem words_eq_nil_iff :
    words name = [] ↔ ∀ character ∈ name, isSeparator character = true := by
  have kept : (words name).flatten = name.filter (fun character => !isSeparator character) :=
    flatten_wordsFrom [] name
  constructor
  · intro wordless character member
    rw [wordless, List.flatten_nil, eq_comm, List.filter_eq_nil_iff] at kept
    simpa using kept character member
  · intro separators
    rw [List.filter_eq_nil_iff.mpr (by simpa using separators), List.flatten_eq_nil_iff] at kept
    exact List.eq_nil_iff_forall_not_mem.mpr fun found member =>
      (isWord_of_mem_words member).ne_nil (kept found member)

/-- **A separator stands between words.** -/
theorem words_append_separator (separates : isSeparator separator = true)
    (before after : List Char) :
    words (before ++ separator :: after) = words before ++ words after :=
  wordsFrom_append_separator separates [] before after

/-- Separators before a name add no words. -/
theorem words_separators_append
    (separators : ∀ character ∈ run, isSeparator character = true) (name : List Char) :
    words (run ++ name) = words name := by
  induction run with
  | nil => rfl
  | cons separator rest ih =>
      obtain ⟨separates, others⟩ := List.forall_mem_cons.mp separators
      calc words (separator :: (rest ++ name))
          = words [] ++ words (rest ++ name) := words_append_separator separates [] _
        _ = words name := ih others

/-- Separators after a name add no words. -/
theorem words_append_separators
    (separators : ∀ character ∈ run, isSeparator character = true) (name : List Char) :
    words (name ++ run) = words name := by
  cases run with
  | nil => rw [List.append_nil]
  | cons separator rest =>
      obtain ⟨separates, others⟩ := List.forall_mem_cons.mp separators
      rw [words_append_separator separates, words_eq_nil_iff.mpr others, List.append_nil]

/-- A run of separators stands between words as one separator does. -/
theorem words_append_run (inside : run ≠ [])
    (separators : ∀ character ∈ run, isSeparator character = true) (before after : List Char) :
    words (before ++ run ++ after) = words before ++ words after := by
  obtain ⟨separator, rest, rfl⟩ := List.exists_cons_of_ne_nil inside
  obtain ⟨separates, others⟩ := List.forall_mem_cons.mp separators
  rw [List.append_assoc, List.cons_append, words_append_separator separates,
    words_separators_append others]

end Words

/-! ## Class names -/

/-- The name has a word: not all of its characters are separators. -/
def HasWord (name : String) : Prop :=
  ∃ character ∈ name.toList, isSeparator character = false

/-- The text has separators only. -/
def IsBlank (text : String) : Prop :=
  ∀ character ∈ text.toList, isSeparator character = true

instance (name : String) : Decidable (HasWord name) :=
  List.decidableBEx (fun character => isSeparator character = false) name.toList

section ClassNames

variable {name other run first second : String}

theorem hasWord_append : HasWord (first ++ second) ↔ HasWord first ∨ HasWord second := by
  simp only [HasWord, String.toList_append, List.mem_append, or_and_right, exists_or]

/-- The capitalized words of a name that has a word are one word together. -/
theorem isWord_capitalized (hasWord : HasWord name) :
    IsWord ((words name.toList).flatMap capitalize) := by
  obtain ⟨character, member, plain⟩ := hasWord
  have inside : words name.toList ≠ [] := by
    intro wordless
    rw [words_eq_nil_iff.mp wordless character member] at plain
    cases plain
  constructor
  · obtain ⟨word, rest, read⟩ := List.exists_cons_of_ne_nil inside
    have isWord : IsWord word := isWord_of_mem_words (read ▸ List.mem_cons_self)
    rw [read, List.flatMap_cons]
    exact List.append_ne_nil_of_left_ne_nil (isWord_capitalize isWord).ne_nil _
  · intro made isMade
    obtain ⟨word, isIn, isMade⟩ := List.mem_flatMap.mp isMade
    exact (isWord_capitalize (isWord_of_mem_words isIn)).plain made isMade

/-- The class name of a name that has a word is made of its words. -/
theorem toList_className (hasWord : HasWord name) :
    (className name).toList = (words name.toList).flatMap capitalize := by
  have inside := List.isEmpty_eq_false_iff.mpr (isWord_capitalized hasWord).ne_nil
  rw [className, inside, if_neg Bool.false_ne_true, String.toList_ofList]

/-- Names of the same words have the same class name. -/
theorem className_eq_of_words (hasWord : HasWord name) (hasWord' : HasWord other)
    (same : words name.toList = words other.toList) : className name = className other := by
  rw [← String.toList_inj, toList_className hasWord, toList_className hasWord', same]

/-- A name without a word is its own class name. -/
theorem className_of_isBlank (blank : IsBlank name) : className name = name := by
  rw [className, words_eq_nil_iff.mpr blank]
  rfl

theorem words_append_blank_append (inside : run ≠ "") (blank : IsBlank run)
    (first second : String) :
    words (first ++ run ++ second).toList = words first.toList ++ words second.toList := by
  rw [String.toList_append, String.toList_append]
  exact words_append_run (mt String.toList_eq_nil_iff.mp inside) blank first.toList second.toList

/-- **Class names add up** over separators. -/
theorem className_append_blank_append (hasFirst : HasWord first) (hasSecond : HasWord second)
    (inside : run ≠ "") (blank : IsBlank run) :
    className (first ++ run ++ second) = className first ++ className second := by
  have hasBoth : HasWord (first ++ run ++ second) := hasWord_append.mpr (.inr hasSecond)
  rw [← String.toList_inj, String.toList_append, toList_className hasBoth,
    toList_className hasFirst, toList_className hasSecond,
    words_append_blank_append inside blank, List.flatMap_append]

/-- Separators in front of a name are not seen in its class name. -/
theorem className_blank_append (hasWord : HasWord name) (blank : IsBlank run) :
    className (run ++ name) = className name := by
  refine className_eq_of_words (hasWord_append.mpr (.inr hasWord)) hasWord ?_
  rw [String.toList_append, words_separators_append blank]

/-- Separators behind a name are not seen in its class name. -/
theorem className_append_blank (hasWord : HasWord name) (blank : IsBlank run) :
    className (name ++ run) = className name := by
  refine className_eq_of_words (hasWord_append.mpr (.inl hasWord)) hasWord ?_
  rw [String.toList_append, words_append_separators blank]

/-- One run of separators does as well as another, wherever it stands. -/
theorem className_exchange_blank (hasWord : HasWord (first ++ second)) (inside : run ≠ "")
    (blank : IsBlank run) (inside' : other ≠ "") (blank' : IsBlank other) :
    className (first ++ run ++ second) = className (first ++ other ++ second) := by
  have around : ∀ between : String, HasWord (first ++ between ++ second) := by
    intro between
    rcases hasWord_append.mp hasWord with hasFirst | hasSecond
    · exact hasWord_append.mpr (.inl (hasWord_append.mpr (.inl hasFirst)))
    · exact hasWord_append.mpr (.inr hasSecond)
  refine className_eq_of_words (around run) (around other) ?_
  rw [words_append_blank_append inside blank, words_append_blank_append inside' blank']

end ClassNames

/-- **Making class names is a homomorphism over separators.** The class name of two names with a
separator between them is their class names one after the other. Separators at the ends of a name
that has a word change nothing, and neither does the length of a run of separators, or which
separators it has. The class name of a name that has a word is not empty and has no separators. A
name of separators only is kept. -/
theorem className_laws :
    (∀ first second : String, HasWord first → HasWord second →
      ∀ separator, isSeparator separator = true →
        className (first ++ String.singleton separator ++ second) =
          className first ++ className second) ∧
    (∀ name run : String, HasWord name → IsBlank run →
      className (run ++ name) = className name ∧ className (name ++ run) = className name) ∧
    (∀ first second run other : String, HasWord (first ++ second) →
      run ≠ "" → IsBlank run → other ≠ "" → IsBlank other →
        className (first ++ run ++ second) = className (first ++ other ++ second)) ∧
    (∀ name : String, HasWord name →
      className name ≠ "" ∧ '_' ∉ (className name).toList ∧ '-' ∉ (className name).toList) ∧
    ∀ name : String, IsBlank name → className name = name := by
  refine ⟨fun first second hasFirst hasSecond separator separates => ?_,
    fun name run hasWord blank =>
      ⟨className_blank_append hasWord blank, className_append_blank hasWord blank⟩,
    fun first second run other => className_exchange_blank, fun name hasWord => ?_,
    fun name => className_of_isBlank⟩
  · refine className_append_blank_append hasFirst hasSecond ?_ ?_
    · exact String.singleton_ne_empty
    · intro character member
      rw [String.toList_singleton, List.mem_singleton] at member
      rw [member, separates]
  · have isWord : IsWord (className name).toList := by
      rw [toList_className hasWord]
      exact isWord_capitalized hasWord
    have absent : ∀ separator, isSeparator separator = true →
        separator ∉ (className name).toList := by
      intro separator separates member
      rw [isWord.plain separator member] at separates
      cases separates
    exact ⟨mt String.toList_eq_nil_iff.mpr isWord.ne_nil, absent '_' rfl, absent '-' rfl⟩

/-- The words on both sides of a separator are capitalized on their own. -/
theorem className_laws_of_get_pet :
    HasWord "get_pet" ∧ HasWord "by_id" ∧ className "get_pet-by_id" = "GetPetById" := by
  have hasFirst : HasWord "get_pet" := by decide +kernel
  have hasSecond : HasWord "by_id" := by decide +kernel
  refine ⟨hasFirst, hasSecond, ?_⟩
  have parts := className_laws.1 "get_pet" "by_id" hasFirst hasSecond '-' rfl
  have first : className "get_pet" = "GetPet" := by decide +kernel
  have second : className "by_id" = "ById" := by decide +kernel
  rw [first, second] at parts
  exact parts

end ResponseShape.Text
