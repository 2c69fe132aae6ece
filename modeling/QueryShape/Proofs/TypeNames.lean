import QueryShape.Proofs.DefinitionOrder
import QueryShape.Proofs.ParsedNames

/-!
# Names of types

The types of a schema that is made from texts have names in the sense of the language: they are read
as single tokens, or they are the library's own. Such a name contains neither brackets nor the mark
of types that exclude null, so that a reference to a type can be read off its notation.

## What this module delivers

- `Reader.takesFront_typeSystemDefinition`: readers of type system documents take tokens from the
  front.
- `Reader.Yields`, `Reader.name_of_typeHead`: the name of a type is the first token behind its
  keyword.
- `TypeSystemDefinition.isName_of_parse?`: the names of the types that a text defines.
- `SchemaDraft.BindsNames`: only names are bound, which loading, extending and building keep.
- `Schema.isName_of_ofSources`: the names of the types of a schema that is made from texts.
- `TypeRef.render_inj`: references with one notation are equal, if they refer to types by names.
-/

set_option autoImplicit false

namespace QueryShape

namespace Source

/-! ## Readers of type system documents -/

namespace Reader

theorem takesFront_description? : TakesFront description? := by
  intro tokens result rest h
  unfold description? at h
  split at h
  · obtain ⟨-, rfl⟩ := Prod.mk.inj (Option.some.inj h)
    exact List.suffix_cons _ _
  · obtain ⟨-, rfl⟩ := Prod.mk.inj (Option.some.inj h)
    exact List.suffix_rfl

theorem takesFront_described : TakesFront described := by
  refine takesFront_description?.bind fun description => takesFront_located.bind fun found => ?_
  cases description with
  | none => exact takesFront_pure _
  | some text => exact takesFront_pure _

theorem takesFront_inputValue (levels : Nat) : TakesFront (inputValue levels) :=
  takesFront_described.bind fun _ => (takesFront_symbol _).bind fun _ =>
    (takesFront_typeRef levels).bind fun _ => (takesFront_defaultValue? levels).bind fun _ =>
      (takesFront_directives levels).bind fun _ => takesFront_pure _

theorem takesFront_parameters (levels : Nat) : TakesFront (parameters levels) :=
  takesFront_bracketed levels _ _ takesFront_inputValue

theorem takesFront_fieldDefinition (levels : Nat) : TakesFront (fieldDefinition levels) :=
  takesFront_described.bind fun _ => (takesFront_parameters levels).bind fun _ =>
    (takesFront_symbol _).bind fun _ => (takesFront_typeRef levels).bind fun _ =>
      (takesFront_directives levels).bind fun _ => takesFront_pure _

theorem takesFront_enumValue (levels : Nat) : TakesFront (enumValue levels) :=
  takesFront_described.bind fun _ => (takesFront_directives levels).bind fun _ =>
    takesFront_pure _

theorem takesFront_namesBy (separator : Char) : TakesFront (namesBy separator) :=
  (takesFront_symbol? _).bind fun _ => takesFront_name.bind fun _ =>
    (takesFront_many _ ((takesFront_symbol _).bind fun _ => takesFront_name)).bind fun _ =>
      takesFront_pure _

theorem takesFront_interfaces : TakesFront interfaces :=
  (takesFront_word? _).bind fun _ => (takesFront_namesBy _).ite (takesFront_pure _)

theorem takesFront_fields : TakesFront fields :=
  takesFront_bracketed _ _ _ takesFront_fieldDefinition

theorem takesFront_typeHead (keyword : String) : TakesFront (typeHead keyword) := by
  have hdirectives := takesFront_directives nestingLimit
  unfold typeHead
  split
  · exact takesFront_name.bind fun _ => hdirectives.bind fun _ => takesFront_pure _
  · exact takesFront_name.bind fun _ => takesFront_interfaces.bind fun _ =>
      hdirectives.bind fun _ => takesFront_fields.bind fun _ => takesFront_pure _
  · exact takesFront_name.bind fun _ => takesFront_interfaces.bind fun _ =>
      hdirectives.bind fun _ => takesFront_fields.bind fun _ => takesFront_pure _
  · exact takesFront_name.bind fun _ => hdirectives.bind fun _ => (takesFront_symbol? _).bind
      fun _ => ((takesFront_namesBy _).bind fun _ => takesFront_pure _).ite (takesFront_pure _)
  · exact takesFront_name.bind fun _ => hdirectives.bind fun _ =>
      (takesFront_bracketed _ _ _ takesFront_enumValue).bind fun _ => takesFront_pure _
  · exact takesFront_name.bind fun _ => hdirectives.bind fun _ =>
      (takesFront_bracketed _ _ _ takesFront_inputValue).bind fun _ => takesFront_pure _
  · exact takesFront_fail

theorem takesFront_extension : TakesFront extension :=
  takesFront_located.bind fun found => (takesFront_typeHead found.1).bind fun _ =>
    (takesFront_pure _).ite takesFront_fail

theorem takesFront_places : TakesFront places :=
  (takesFront_next _).bind fun _ => ((takesFront_namesBy _).bind fun _ =>
    (takesFront_pure _).ite takesFront_fail).ite (takesFront_pure _)

theorem takesFront_directiveDefinition (position : Position) (description : Option String) :
    TakesFront (directiveDefinition position description) :=
  (takesFront_symbol _).bind fun _ => takesFront_name.bind fun _ =>
    (takesFront_parameters _).bind fun _ => (takesFront_word? _).bind fun _ =>
      (takesFront_word _).bind fun _ => takesFront_places.bind fun _ => takesFront_pure _

theorem takesFront_rootEntry : TakesFront rootEntry := by
  refine takesFront_name.bind fun keyword => (takesFront_symbol _).bind fun _ =>
    takesFront_name.bind fun type => ?_
  cases OperationKind.ofKeyword? keyword with
  | none => exact takesFront_fail
  | some kind => exact takesFront_pure _

theorem takesFront_rootBlock (position : Position) : TakesFront (rootBlock position) :=
  (takesFront_directives _).bind fun _ => (takesFront_symbol _).bind fun _ =>
    (takesFront_upTo _ takesFront_rootEntry).bind fun _ => (takesFront_pure _).ite takesFront_fail

/-- What stands behind the keyword of a definition. -/
def typeSystemRest (description : Option (String × Position)) (keyword : String)
    (position : Position) : Reader TypeSystemDefinition := do
  match keyword, description with
  | "schema", none => return .roots (← rootBlock position)
  | "extend", none => return .extension (← extension)
  | "directive", _ =>
      return .directive (← directiveDefinition position (description.map Prod.fst))
  | _, _ =>
      let head ← typeHead keyword
      return .type ⟨position, description.map Prod.fst, head.name, head.directives, head.body⟩

theorem typeSystemDefinition_eq : typeSystemDefinition = description? >>= fun description =>
    located >>= fun found => typeSystemRest description found.1 found.2 :=
  rfl

theorem takesFront_typeSystemDefinition : TakesFront typeSystemDefinition := by
  rw [typeSystemDefinition_eq]
  refine takesFront_description?.bind fun description => takesFront_located.bind fun found => ?_
  unfold typeSystemRest
  split
  · exact (takesFront_rootBlock _).bind fun _ => takesFront_pure _
  · exact takesFront_extension.bind fun _ => takesFront_pure _
  · exact (takesFront_directiveDefinition _ _).bind fun _ => takesFront_pure _
  · exact (takesFront_typeHead _).bind fun _ => takesFront_pure _

/-! ## Names of defined types -/

section Yields

variable {α β : Type} {reader reader' : Reader α} {P : α → Prop}

/-- Whatever a reader reads has a property. -/
def Yields (P : α → Prop) (reader : Reader α) : Prop :=
  ∀ tokens result rest, reader tokens = some (result, rest) → P result

theorem yields_pure {value : α} (h : P value) : Yields P (pure value) := by
  intro tokens result rest hread
  obtain ⟨rfl, -⟩ := pure_eq_some.mp hread
  exact h

theorem Yields.bind {first : Reader β} {next : β → Reader α}
    (h : ∀ found, Yields P (next found)) : Yields P (first >>= next) := by
  intro tokens result rest hread
  obtain ⟨found, middle, -, hrest⟩ := bind_eq_some.mp hread
  exact h found middle result rest hrest

theorem Yields.ite {condition : Prop} [Decidable condition] (h : Yields P reader)
    (h' : Yields P reader') : Yields P (if condition then reader else reader') := by
  split
  · exact h
  · exact h'

end Yields

/-- The name of a type is what comes first behind the keyword. -/
theorem name_of_typeHead {keyword : String} {tokens rest : List Token} {head : TypeHead}
    (h : typeHead keyword tokens = some (head, rest)) :
    ∃ middle, name tokens = some (head.name, middle) := by
  have hfirst : ∀ {next : String → Reader TypeHead},
      (∀ text, Yields (fun found => found.name = text) (next text)) →
      (name >>= next) tokens = some (head, rest) →
      ∃ middle, name tokens = some (head.name, middle) := by
    intro next hnext hread
    obtain ⟨text, middle, hname, hrest⟩ := bind_eq_some.mp hread
    obtain rfl := hnext text middle head rest hrest
    exact ⟨middle, hname⟩
  unfold typeHead at h
  split at h
  · exact hfirst (fun _ => .bind fun _ => yields_pure rfl) h
  · exact hfirst (fun _ => .bind fun _ => .bind fun _ => .bind fun _ => yields_pure rfl) h
  · exact hfirst (fun _ => .bind fun _ => .bind fun _ => .bind fun _ => yields_pure rfl) h
  · exact hfirst (fun _ => .bind fun _ => .bind fun _ =>
      .ite (.bind fun _ => yields_pure rfl) (yields_pure rfl)) h
  · exact hfirst (fun _ => .bind fun _ => .bind fun _ => yields_pure rfl) h
  · exact hfirst (fun _ => .bind fun _ => .bind fun _ => yields_pure rfl) h
  · exact absurd h.symm (Option.some_ne_none _)

/-- The name of a type that is defined is the text of a token. -/
theorem name_of_typeSystemDefinition {tokens rest : List Token} {definition : TypeDefinition}
    (h : typeSystemDefinition tokens = some (.type definition, rest)) :
    ∃ token ∈ tokens, token.lexeme = .name definition.name := by
  rw [typeSystemDefinition_eq] at h
  obtain ⟨description, behind, hdescription, h⟩ := bind_eq_some.mp h
  obtain ⟨⟨keyword, position⟩, middle, hlocated, h⟩ := bind_eq_some.mp h
  have hmiddle : middle <:+ tokens :=
    (takesFront_located _ _ _ hlocated).trans (takesFront_description? _ _ _ hdescription)
  generalize hreader : typeSystemRest description keyword position = reader at h
  unfold typeSystemRest at hreader
  split at hreader
  all_goals subst hreader
  · obtain ⟨block, _, -, h⟩ := bind_eq_some.mp h
    exact nomatch (pure_eq_some.mp h).1
  · obtain ⟨extension, _, -, h⟩ := bind_eq_some.mp h
    exact nomatch (pure_eq_some.mp h).1
  · obtain ⟨directive, _, -, h⟩ := bind_eq_some.mp h
    exact nomatch (pure_eq_some.mp h).1
  · obtain ⟨head, _, hhead, h⟩ := bind_eq_some.mp h
    obtain ⟨hdefinition, -⟩ := pure_eq_some.mp h
    obtain rfl := TypeSystemDefinition.type.inj hdefinition
    obtain ⟨_, hname⟩ := name_of_typeHead hhead
    obtain ⟨⟨text, position'⟩, _, hfound, hname⟩ := bind_eq_some.mp hname
    obtain ⟨htext, -⟩ := pure_eq_some.mp hname
    rw [located_eq_some.mp hfound] at hmiddle
    exact ⟨_, hmiddle.subset List.mem_cons_self, congrArg Lexeme.name htext⟩

end Reader

/-- In a text the names of the types that it defines are names. -/
theorem TypeSystemDefinition.isName_of_parse? {text : String}
    {definitions : List TypeSystemDefinition}
    (h : TypeSystemDefinition.parse? text = some definitions) {definition : TypeDefinition}
    (hmem : .type definition ∈ definitions) : IsName definition.name := by
  obtain ⟨found, hrun, h⟩ := Option.bind_eq_some_iff.mp h
  split at h
  · exact absurd h.symm (Option.some_ne_none _)
  · obtain rfl := Option.some.inj h
    obtain ⟨tokens, rest, hread, hnames⟩ :=
      Reader.exists_of_mem_run? Reader.takesFront_typeSystemDefinition hrun hmem
    obtain ⟨token, htoken, hlexeme⟩ := Reader.name_of_typeSystemDefinition hread
    exact hnames token htoken definition.name hlexeme

end Source

/-! ## Types of a schema -/

/-- A run of steps keeps what each of its steps keeps. -/
theorem foldlM_keeps {σ ε α : Type} {P : σ → Prop} {step : σ → α → Except ε σ} (entries : List α)
    (hstep : ∀ entry ∈ entries, ∀ state next, P state → step state entry = .ok next → P next)
    {state result : σ} (hstate : P state) (h : entries.foldlM step state = .ok result) :
    P result := by
  induction entries generalizing state with
  | nil =>
      cases h
      exact hstate
  | cons entry entries ih =>
      obtain ⟨hentry, hentries⟩ := List.forall_mem_cons.mp hstep
      rw [List.foldlM_cons, bind_eq_ok] at h
      obtain ⟨next, hfirst, hrest⟩ := h
      exact ih hentries (hentry state next hstate hfirst) hrest

namespace SchemaDraft

open Source (TypeSystemDefinition)

variable {draft after : SchemaDraft} {types next : Table NamedType}

/-- Only names are bound to types. -/
def BindsNames (types : Table NamedType) : Prop :=
  ∀ name type, types.get? name = some type → Source.IsName name

theorem BindsNames.insert (h : BindsNames types) {name : String} (hname : Source.IsName name)
    (type : NamedType) : BindsNames (types.insert name type) := by
  intro other present hget
  rw [Table.get?_insert] at hget
  split at hget
  · next heq => rwa [heq]
  · exact h other present hget

theorem bindsNames_empty : BindsNames SchemaDraft.empty.types := by
  intro name type hget
  have hmem : name ∈ SchemaDraft.empty.types.keys := Table.mem_keys_of_get? hget
  have hall : ∀ name ∈ SchemaDraft.empty.types.keys, Source.IsName name := by decide
  exact hall name hmem

/-- Of all definitions only those of types bind a name, and it is the name of the definition. -/
theorem BindsNames.add {origin : Origin} {definition : TypeSystemDefinition}
    (hname : ∀ defined, definition = .type defined → Source.IsName defined.name)
    (h : BindsNames draft.types) (hadd : add origin draft definition = .ok after) :
    BindsNames after.types := by
  cases definition with
  | type definition =>
      obtain ⟨type, htype, hadd⟩ := bind_eq_ok.mp hadd
      rw [addType_eq_ok hadd, NamedType.name_ofSource htype]
      exact h.insert (hname definition rfl) type
  | directive definition => rwa [types_addDirective hadd]
  | roots block =>
      refine foldlM_keeps (P := fun draft => BindsNames draft.types) _
        (fun kind _ state next hstate hnext => ?_) h hadd
      rwa [types_addRoot hnext]
  | extension extension =>
      cases hadd
      exact h

theorem BindsNames.addAll {origin : Origin} {definitions : List TypeSystemDefinition}
    (hnames : ∀ defined, .type defined ∈ definitions → Source.IsName defined.name)
    (h : BindsNames draft.types) (hadd : draft.addAll origin definitions = .ok after) :
    BindsNames after.types := by
  refine foldlM_keeps (P := fun draft => BindsNames draft.types) definitions ?_ h hadd
  intro definition hmem state next hstate hnext
  exact hstate.add (fun defined heq => hnames defined (heq ▸ hmem)) hnext

theorem BindsNames.load {file : Option FileName} {text : String} (h : BindsNames draft.types)
    (hload : draft.load file text = .ok after) : BindsNames after.types := by
  cases hparse : TypeSystemDefinition.parse? text with
  | none =>
      simp only [SchemaDraft.load, hparse] at hload
      exact absurd hload error_ne_ok
  | some definitions =>
      simp only [SchemaDraft.load, hparse] at hload
      exact h.addAll (fun _ hmem => TypeSystemDefinition.isName_of_parse? hparse hmem) hload

/-- An extension applies to a type that is bound already. -/
theorem BindsNames.applyExtension {entry : Option FileName × Source.TypeExtension}
    (h : BindsNames types) (happly : applyExtension types entry = .ok next) : BindsNames next := by
  obtain ⟨file, extension⟩ := entry
  cases htype : types.get? extension.name with
  | none =>
      simp only [SchemaDraft.applyExtension, htype] at happly
      exact absurd happly error_ne_ok
  | some type =>
      simp only [SchemaDraft.applyExtension, htype] at happly
      obtain ⟨extended, -, rfl⟩ := map_eq_ok.mp happly
      exact h.insert (h extension.name type htype) extended

theorem isName_of_mem_introspection {definition : Source.TypeDefinition}
    (h : .type definition ∈ Introspection.definitions) : Source.IsName definition.name := by
  obtain ⟨found, hmem, heq⟩ := List.mem_map.mp h
  obtain rfl := TypeSystemDefinition.type.inj heq
  have hall : ∀ definition ∈ Introspection.layOut 1 Introspection.blocks,
      Source.IsName definition.name := by decide +kernel
  exact hall found hmem

end SchemaDraft

/-- The types of a schema that is made from texts are bound to names. -/
theorem Schema.isName_of_ofSources {sources : List (Option FileName × String)} {schema : Schema}
    (h : Schema.ofSources sources = .ok schema) {name : String} {type : NamedType}
    (htype : schema.type? name = some type) : Source.IsName name := by
  obtain ⟨draft, hload, hbuild⟩ := bind_eq_ok.mp h
  obtain ⟨loaded, types, hloaded, htypes, hfinishes⟩ := SchemaDraft.build_eq_ok_iff.mp hbuild
  have hdraft : SchemaDraft.BindsNames draft.types :=
    foldlM_keeps (P := fun draft => SchemaDraft.BindsNames draft.types) sources
      (fun _ _ _ _ hstate hnext => hstate.load hnext) SchemaDraft.bindsNames_empty hload
  have hall : SchemaDraft.BindsNames loaded.types :=
    hdraft.addAll (fun _ => SchemaDraft.isName_of_mem_introspection) hloaded
  have hextended : SchemaDraft.BindsNames types :=
    foldlM_keeps _ (fun _ _ _ _ hstate hnext => hstate.applyExtension hnext) hall htypes
  rw [hfinishes.schema] at htype
  exact hextended name type htype

/-! ## Notation of references -/

namespace TypeRef

open Source.Token (continuesName)

theorem mark_inj {nullable nullable' : Bool} (h : mark nullable = mark nullable') :
    nullable = nullable' := by
  cases nullable with
  | true => cases nullable' with
    | true => rfl
    | false => exact absurd h (by decide)
  | false => cases nullable' with
    | true => exact absurd h (by decide)
    | false => rfl

theorem toList_render_named (name : String) (nullable : Bool) :
    (named name nullable).render.toList = name.toList ++ (mark nullable).toList :=
  String.toList_append

theorem toList_render_list (item : TypeRef) (nullable : Bool) :
    (list item nullable).render.toList =
      '[' :: (item.render.toList ++ ']' :: (mark nullable).toList) := by
  have hopening : "[".toList = ['['] := by decide
  have hclosing : "]".toList = [']'] := by decide
  rw [render, String.toList_append, String.toList_append, String.toList_append, hopening, hclosing,
    List.append_assoc, List.append_assoc, List.singleton_append, List.singleton_append]

/-- A name can be read off the notation of a reference to it: the mark is no part of a name. -/
theorem takeWhile_render_named {name : String} (hname : Source.IsName name) (nullable : Bool) :
    (named name nullable).render.toList.takeWhile continuesName = name.toList := by
  have hmark : (mark nullable).toList.takeWhile continuesName = [] := by
    cases nullable <;> decide
  rw [toList_render_named, List.takeWhile_append_of_pos hname, hmark, List.append_nil]

theorem takeWhile_render_list (item : TypeRef) (nullable : Bool) :
    (list item nullable).render.toList.takeWhile continuesName = [] := by
  rw [toList_render_list]
  exact List.takeWhile_cons_of_neg (by decide)

/-- The notation of a list has a bracket where that of a name has none. -/
theorem render_named_ne_list {name : String} (hname : Source.IsName name) (nullable : Bool)
    (item : TypeRef) (nullable' : Bool) :
    (named name nullable).render ≠ (list item nullable').render := by
  intro h
  have hempty : name.toList = [] := by
    rw [← takeWhile_render_named hname nullable, h, takeWhile_render_list]
  have hchars := congrArg String.toList h
  rw [toList_render_named, toList_render_list, hempty, List.nil_append] at hchars
  cases nullable with
  | true => exact absurd hchars (by simp [mark])
  | false => exact absurd hchars (by simp [mark])

/-- The mark behind a bracket is read off the end. -/
theorem append_closing_inj {left right : List Char} {nullable nullable' : Bool}
    (h : left ++ ']' :: (mark nullable).toList = right ++ ']' :: (mark nullable').toList) :
    left = right ∧ nullable = nullable' := by
  have hlast := congrArg List.getLast? h
  cases nullable <;> cases nullable'
  · exact ⟨List.append_cancel_right h, rfl⟩
  · exact absurd hlast (by simp [mark])
  · exact absurd hlast (by simp [mark])
  · exact ⟨List.append_cancel_right h, rfl⟩

/-- References to types with names are told apart by their notation. -/
theorem render_inj {left right : TypeRef} (hleft : Source.IsName left.typeName)
    (hright : Source.IsName right.typeName) (h : left.render = right.render) : left = right := by
  induction left generalizing right with
  | named name nullable =>
      cases right with
      | named name' nullable' =>
          have hname : name.toList = name'.toList := by
            have hread : (named name nullable).render.toList.takeWhile continuesName = name.toList :=
              takeWhile_render_named hleft nullable
            rw [h] at hread
            exact hread.symm.trans (takeWhile_render_named hright nullable')
          have hchars := congrArg String.toList h
          rw [toList_render_named, toList_render_named, hname] at hchars
          have hmark := mark_inj (String.toList_injective (List.append_cancel_left hchars))
          rw [String.toList_injective hname, hmark]
      | list item nullable' => exact absurd h (render_named_ne_list hleft _ _ _)
  | list item nullable ih =>
      cases right with
      | named name nullable' => exact absurd h.symm (render_named_ne_list hright _ _ _)
      | list item' nullable' =>
          have hchars := congrArg String.toList h
          rw [toList_render_list, toList_render_list, List.cons.injEq] at hchars
          obtain ⟨hitem, hnullable⟩ := append_closing_inj hchars.2
          have hsame : item = item' := ih hleft hright (String.toList_injective hitem)
          rw [hsame, hnullable]

end TypeRef

end QueryShape
