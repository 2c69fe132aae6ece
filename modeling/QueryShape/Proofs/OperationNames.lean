import QueryShape.Proofs.Identity

/-!
# Operations are named in their texts

A printed operation begins with its keyword, a space and its name, and the name ends there: what
follows is a parenthesis or a space. Whatever stands below the operation, the name can therefore be
read off the text again, so operations with different names have different canonical texts.

## What this module delivers

- `Source.IsName`: texts of characters that can stand in a name.
- `EndsName`: what may follow a name in a text.
- `secondWord`: the name that follows a word and a space.
- `Source.Operation.toList_source`: what a printed operation begins with.
- `Operation.secondWord_canonicalSource`: the name of an operation, read off its canonical text.
-/

set_option autoImplicit false

namespace QueryShape

open Source.Token (continuesName)

/-! ## Names in texts -/

/-- A text consists of characters that can stand in a name. -/
def Source.IsName (text : String) : Prop :=
  ∀ c ∈ text.toList, continuesName c = true

instance (text : String) : Decidable (Source.IsName text) :=
  decidable_of_iff (text.toList.all continuesName = true) List.all_eq_true

/-- A name ends where these characters begin. -/
def EndsName (chars : List Char) : Prop :=
  ∃ next rest, chars = next :: rest ∧ continuesName next = false

theorem EndsName.append {chars : List Char} (h : EndsName chars) (more : List Char) :
    EndsName (chars ++ more) := by
  obtain ⟨next, rest, rfl, hnext⟩ := h
  exact ⟨next, rest ++ more, rfl, hnext⟩

/-- What may be missing does not matter if a name ends at what follows. -/
theorem EndsName.append_right {chars more : List Char} (h : EndsName more)
    (hchars : chars = [] ∨ EndsName chars) : EndsName (chars ++ more) := by
  rcases hchars with rfl | hchars
  · exact h
  · exact hchars.append more

/-- The second of the words that are separated by single characters. -/
def secondWord (chars : List Char) : List Char :=
  (chars.dropWhile continuesName).tail.takeWhile continuesName

theorem secondWord_eq {word name rest : List Char} (hword : ∀ c ∈ word, continuesName c = true)
    (hname : ∀ c ∈ name, continuesName c = true) (hrest : EndsName rest) :
    secondWord (word ++ ' ' :: (name ++ rest)) = name := by
  obtain ⟨next, rest, rfl, hnext⟩ := hrest
  have hspace : continuesName ' ' = false := by decide
  rw [secondWord, List.dropWhile_append_of_pos hword, List.dropWhile_cons_of_neg (by simp [hspace]),
    List.tail_cons, List.takeWhile_append_of_pos hname,
    List.takeWhile_cons_of_neg (by simp [hnext]), List.append_nil]

/-- The first of some texts is at the beginning when they are joined. -/
theorem toList_intercalate_cons (separator text : String) (texts : List String) :
    ∃ more, (separator.intercalate (text :: texts)).toList = text.toList ++ more := by
  rw [String.toList_intercalate, List.map_cons]
  cases texts with
  | nil => exact ⟨[], by simp [List.intercalate]⟩
  | cons next rest =>
      exact ⟨separator.toList ++
        separator.toList.intercalate (next.toList :: rest.map String.toList),
        by simp [List.intercalate]⟩

/-! ## Printed operations -/

namespace Source

theorem trimEndChars_closed (chars : List Char) :
    Text.trimEndChars (chars ++ ['\x7d', '\n']) = chars ++ ['\x7d'] := by
  have hline : Text.isBlank '\n' = true := by decide
  have hbrace : Text.isBlank '\x7d' = false := by decide
  simp [Text.trimEndChars, hline, hbrace]

theorem endsName_declared (kind : OperationKind) (named : Bool)
    (definitions : List VariableDefinition) :
    (Printer.declared kind named definitions).toList = [] ∨
      EndsName (Printer.declared kind named definitions).toList := by
  have hopen : ∀ inner : String, EndsName ("(" ++ inner ++ ")").toList := by
    intro inner
    rw [String.toList_append, String.toList_append]
    exact ⟨'(', inner.toList ++ ")".toList, rfl, by decide⟩
  dsimp only [Printer.declared]
  split
  · split
    · exact Or.inl rfl
    · exact Or.inr (hopen _)
  · split
    · exact Or.inl rfl
    · exact Or.inr (hopen _)

theorem endsName_directives (indent : Nat) (directives : List Directive) :
    (Printer.directives indent directives).toList = [] ∨
      EndsName (Printer.directives indent directives).toList := by
  cases directives with
  | nil => exact Or.inl rfl
  | cons first rest =>
      rw [Printer.directives, List.map_cons, String.join_cons, String.toList_append,
        String.toList_append]
      exact Or.inr (EndsName.append ⟨' ', _, rfl, by decide⟩ _)

/-- A printed operation begins with its keyword, a space and its name, and the name ends there. -/
theorem Operation.toList_source {operation : Operation} {name : String}
    (hname : operation.name = some name) :
    ∃ rest, EndsName rest ∧ (Definition.operation operation).source.toList =
      operation.kind.keyword.toList ++ ' ' :: (name.toList ++ rest) := by
  -- What stands between the name and the final brace.
  let middle : List Char :=
    (Printer.declared operation.kind true operation.declared).toList ++
      ((Printer.directives 0 operation.directives).toList ++
        (" \x7b\n".toList ++ (Selection.printAll 2 operation.selections).toList))
  have hmiddle : EndsName middle := by
    refine EndsName.append_right ?_ (endsName_declared _ _ _)
    refine EndsName.append_right ?_ (endsName_directives _ _)
    exact EndsName.append ⟨' ', _, rfl, by decide⟩ _
  have hprint : operation.print.toList =
      (operation.kind.keyword.toList ++ ' ' :: (name.toList ++ middle)) ++ ['\x7d', '\n'] := by
    rw [Operation.print, hname]
    simp [Printer.braces, Printer.margin, middle]
  refine ⟨middle ++ ['\x7d'], hmiddle.append _, ?_⟩
  rw [Definition.source, Definition.print, Text.trimEnd, String.toList_ofList, hprint,
    trimEndChars_closed]
  simp

end Source

/-! ## Canonical texts -/

theorem OperationKind.isName_keyword (kind : OperationKind) : Source.IsName kind.keyword := by
  cases kind with
  | query => decide
  | mutation => decide
  | subscription => decide

/-- The name of a compiled operation can be read off its canonical text. -/
theorem Operation.secondWord_canonicalSource {schema : Schema} {table : FragmentTable}
    {file : Option FileName} {source : Source.Operation} {operation : Operation}
    (h : OperationCompiles schema table file source operation)
    (hname : Source.IsName operation.name) :
    secondWord (operation.canonicalSource table).toList = operation.name.toList := by
  have hsource : source.name = some operation.name ∧
      operation.source = (Source.Definition.operation source).source := by
    obtain ⟨_, _, _, _, _, _, _, hsome, -, -, -, -, -, -, rfl⟩ := h
    exact ⟨hsome, rfl⟩
  obtain ⟨rest, hrest, htext⟩ := Source.Operation.toList_source hsource.1
  obtain ⟨more, hmore⟩ := toList_intercalate_cons "\n" operation.source
    ((operation.closure table).filterMap fun id => (table.get? id).map Fragment.source)
  rw [canonicalSource, hmore, hsource.2, htext, List.append_assoc, List.cons_append,
    List.append_assoc]
  exact secondWord_eq source.kind.isName_keyword hname (hrest.append more)

/-- Operations of a compiled document with one canonical text are one. -/
theorem CompiledFrom.canonicalSource_inj {schema : Schema} {texts : List SourceText}
    {definitions : Table FragmentSource} {document : CompiledDocument}
    (h : CompiledFrom schema texts definitions document)
    (hnames : ∀ operation ∈ document.operations, Source.IsName operation.name)
    {left right : Operation} (hleft : left ∈ document.operations)
    (hright : right ∈ document.operations)
    (htext : left.canonicalSource document.fragments = right.canonicalSource document.fragments) :
    left = right := by
  obtain ⟨file, source, -, -, -, hcompiles⟩ := h.exists_operationSource hleft
  obtain ⟨file', source', -, -, -, hcompiles'⟩ := h.exists_operationSource hright
  have hread := Operation.secondWord_canonicalSource hcompiles (hnames left hleft)
  have hread' := Operation.secondWord_canonicalSource hcompiles' (hnames right hright)
  rw [htext, hread'] at hread
  exact List.inj_on_of_nodup_map h.distinct hleft hright (String.toList_injective hread.symm)

end QueryShape
