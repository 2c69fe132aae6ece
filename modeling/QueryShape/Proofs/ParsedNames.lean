import Mathlib.Data.List.Infix
import QueryShape.Proofs.OperationNames

/-!
# Names in parsed documents

A reader takes tokens from the front and leaves the rest as it is. What it returns as a name is the
text of a token, and such a text consists of characters that can stand in a name. In documents that
come from texts, operations therefore have names in this sense.

## What this module delivers

- `Reader.TakesFront`: what is left of the tokens is at their end.
- `takesFront_definition`: the reader of definitions does this, and so do those that it consists of.
- `Reader.name_of_definition`: the name of an operation is the text of a token.
- `Token.isName_of_ofChars?`: the texts of such tokens.
- `Reader.exists_of_mem_run?`: what is listed in a text was read from such tokens.
- `Document.isName_of_parse?`: the names of the operations of a parsed document.
- `Schema.isName_of_compile`: the names of what is compiled from such documents.
-/

set_option autoImplicit false

namespace QueryShape

namespace Source

/-! ## Readers take tokens from the front -/

namespace Reader

variable {α β : Type} {reader : Reader α}

/-- A reader leaves tokens that stand at the end of the given ones. -/
def TakesFront (reader : Reader α) : Prop :=
  ∀ tokens result rest, reader tokens = some (result, rest) → rest <:+ tokens

/-- A reader behind another one begins with the tokens that this one leaves. -/
theorem bind_eq_some {next : α → Reader β} {tokens rest : List Token} {result : β} :
    (reader >>= next) tokens = some (result, rest) ↔
      ∃ first middle, reader tokens = some (first, middle) ∧
        next first middle = some (result, rest) := by
  change (reader tokens).bind (fun found => next found.1 found.2) = _ ↔ _
  rw [Option.bind_eq_some_iff, Prod.exists]

theorem pure_eq_some {value result : α} {tokens rest : List Token} :
    (pure value : Reader α) tokens = some (result, rest) ↔ value = result ∧ tokens = rest := by
  change some (value, tokens) = _ ↔ _
  rw [Option.some.injEq, Prod.mk.injEq]

theorem map_eq_some {f : α → β} {tokens rest : List Token} {result : β} :
    (f <$> reader) tokens = some (result, rest) ↔
      ∃ found, reader tokens = some (found, rest) ∧ f found = result := by
  change (reader tokens).bind (fun found => some (f found.1, found.2)) = _ ↔ _
  simp only [Option.bind_eq_some_iff, Prod.exists, Option.some.injEq, Prod.mk.injEq]
  constructor
  · rintro ⟨found, _, hfound, rfl, rfl⟩
    exact ⟨found, hfound, rfl⟩
  · rintro ⟨found, hfound, rfl⟩
    exact ⟨found, rest, hfound, rfl, rfl⟩

theorem takesFront_pure (value : α) : TakesFront (pure value : Reader α) := by
  intro tokens result rest h
  obtain ⟨-, rfl⟩ := pure_eq_some.mp h
  exact List.suffix_rfl

theorem takesFront_fail : TakesFront (fail : Reader α) :=
  fun _ _ _ h => absurd h.symm (Option.some_ne_none _)

theorem TakesFront.bind {next : α → Reader β} (h : TakesFront reader)
    (hnext : ∀ first, TakesFront (next first)) : TakesFront (reader >>= next) := by
  intro tokens result rest hread
  obtain ⟨first, middle, hfirst, hrest⟩ := bind_eq_some.mp hread
  exact (hnext first middle result rest hrest).trans (h tokens first middle hfirst)

theorem TakesFront.map (h : TakesFront reader) (f : α → β) : TakesFront (f <$> reader) := by
  rw [map_eq_pure_bind]
  exact h.bind fun _ => takesFront_pure _

theorem TakesFront.ite {reader' : Reader α} {condition : Prop} [Decidable condition]
    (h : TakesFront reader) (h' : TakesFront reader') :
    TakesFront (if condition then reader else reader') := by
  split
  · exact h
  · exact h'

/-! ## Single tokens -/

theorem takesFront_peek? : TakesFront peek? := by
  intro tokens result rest h
  obtain ⟨-, rfl⟩ := Prod.mk.inj (Option.some.inj h)
  exact List.suffix_rfl

theorem takesFront_take (test : Token → Bool) : TakesFront (take test) := by
  intro tokens result rest h
  cases tokens with
  | nil => exact absurd h.symm (Option.some_ne_none _)
  | cons token tokens =>
      rw [take] at h
      split at h
      · obtain ⟨-, rfl⟩ := Prod.mk.inj (Option.some.inj h)
        exact List.suffix_cons _ _
      · exact absurd h.symm (Option.some_ne_none _)

theorem takesFront_take? (test : Token → Bool) : TakesFront (take? test) := by
  intro tokens result rest h
  cases tokens with
  | nil =>
      obtain ⟨-, rfl⟩ := Prod.mk.inj (Option.some.inj h)
      exact List.suffix_rfl
  | cons token tokens =>
      rw [take?] at h
      split at h
      · obtain ⟨-, rfl⟩ := Prod.mk.inj (Option.some.inj h)
        exact List.suffix_cons _ _
      · obtain ⟨-, rfl⟩ := Prod.mk.inj (Option.some.inj h)
        exact List.suffix_rfl

/-- A name with its place is the text of the first token. -/
theorem located_eq_some {tokens rest : List Token} {text : String} {position : Position} :
    located tokens = some ((text, position), rest) ↔
      tokens = ⟨.name text, position⟩ :: rest := by
  constructor
  · intro h
    unfold located at h
    split at h
    · simp only [Option.some.injEq, Prod.mk.injEq] at h
      obtain ⟨⟨rfl, rfl⟩, rfl⟩ := h
      rfl
    · exact absurd h.symm (Option.some_ne_none _)
  · rintro rfl
    rfl

theorem takesFront_located : TakesFront located := by
  rintro tokens ⟨text, position⟩ rest h
  rw [located_eq_some.mp h]
  exact List.suffix_cons _ _

theorem takesFront_next (test : Token → Bool) : TakesFront (next test) :=
  takesFront_peek?.bind fun _ => takesFront_pure _

theorem takesFront_symbol (c : Char) : TakesFront (symbol c) :=
  (takesFront_take _).bind fun _ => takesFront_pure _

theorem takesFront_symbol? (c : Char) : TakesFront (symbol? c) :=
  (takesFront_take? _).bind fun _ => takesFront_pure _

theorem takesFront_word (text : String) : TakesFront (word text) :=
  (takesFront_take _).bind fun _ => takesFront_pure _

theorem takesFront_word? (text : String) : TakesFront (word? text) :=
  (takesFront_take? _).bind fun _ => takesFront_pure _

theorem takesFront_name : TakesFront name :=
  takesFront_located.bind fun _ => takesFront_pure _

/-! ## Repetition -/

theorem takesFront_manyFuel (go : Token → Bool) (h : TakesFront reader) (fuel : Nat) :
    TakesFront (manyFuel go reader fuel) := by
  induction fuel with
  | zero => exact takesFront_pure _
  | succ fuel ih =>
      exact (takesFront_next go).bind fun _ =>
        (h.bind fun _ => ih.bind fun _ => takesFront_pure _).ite (takesFront_pure _)

theorem takesFront_many (go : Token → Bool) (h : TakesFront reader) :
    TakesFront (many go reader) :=
  fun tokens result rest hread =>
    takesFront_manyFuel go h tokens.length tokens result rest hread

theorem takesFront_upTo (close : Char) (h : TakesFront reader) :
    TakesFront (upTo close reader) :=
  (takesFront_many _ h).bind fun _ => (takesFront_symbol close).bind fun _ => takesFront_pure _

theorem takesFront_someUntil (close : Char) (h : TakesFront reader) :
    TakesFront (someUntil close reader) :=
  (takesFront_upTo close h).bind fun _ => takesFront_fail.ite (takesFront_pure _)

theorem takesFront_bracketed (levels : Nat) (opening closing : Char) {item : Nat → Reader α}
    (h : ∀ inner, TakesFront (item inner)) :
    TakesFront (bracketed levels opening closing item) := by
  refine (takesFront_symbol? opening).bind fun found => TakesFront.ite ?_ (takesFront_pure _)
  cases levels with
  | zero => exact takesFront_fail
  | succ inner => exact takesFront_someUntil closing (h inner)

/-! ## Types, values and directives -/

theorem takesFront_typeRef (levels : Nat) : TakesFront (typeRef levels) := by
  have hnamed : TakesFront (do
      let text ← name
      let strict ← symbol? '!'
      return TypeRef.named text !strict) :=
    takesFront_name.bind fun _ => (takesFront_symbol? _).bind fun _ => takesFront_pure _
  induction levels with
  | zero => exact hnamed
  | succ levels ih =>
      refine (takesFront_symbol? _).bind fun _ => TakesFront.ite ?_ hnamed
      exact ih.bind fun _ => (takesFront_symbol _).bind fun _ =>
        (takesFront_symbol? _).bind fun _ => takesFront_pure _

theorem takesFront_plainValue (allowed : Bool) : TakesFront (plainValue allowed) := by
  intro tokens result rest h
  unfold plainValue at h
  split at h
  · split at h
    · -- A variable takes its name as well.
      have hname : TakesFront (do return Value.variable (← name)) :=
        takesFront_name.bind fun _ => takesFront_pure _
      exact (hname _ _ _ h).trans (List.suffix_cons _ _)
    · exact absurd h.symm (Option.some_ne_none _)
  all_goals first
    | exact absurd h.symm (Option.some_ne_none _)
    | obtain ⟨-, rfl⟩ := Prod.mk.inj (Option.some.inj h)
      exact List.suffix_cons _ _

theorem takesFront_value (allowed : Bool) (levels : Nat) : TakesFront (value allowed levels) := by
  induction levels with
  | zero => exact takesFront_plainValue allowed
  | succ levels ih =>
      have hentry : TakesFront (do
          let key ← name
          let _ ← symbol ':'
          let value ← value allowed levels
          return (key, value)) :=
        takesFront_name.bind fun _ => (takesFront_symbol _).bind fun _ =>
          ih.bind fun _ => takesFront_pure _
      refine (takesFront_symbol? _).bind fun _ => TakesFront.ite ?_ ?_
      · exact (takesFront_upTo _ ih).bind fun _ => takesFront_pure _
      · refine (takesFront_symbol? _).bind fun _ => TakesFront.ite ?_ (takesFront_plainValue _)
        exact (takesFront_upTo _ hentry).bind fun _ => takesFront_pure _

theorem takesFront_argument (levels : Nat) : TakesFront (argument levels) :=
  takesFront_name.bind fun _ => (takesFront_symbol _).bind fun _ =>
    (takesFront_value _ levels).bind fun _ => takesFront_pure _

theorem takesFront_arguments (levels : Nat) : TakesFront (arguments levels) :=
  takesFront_bracketed levels _ _ takesFront_argument

theorem takesFront_directives (levels : Nat) : TakesFront (directives levels) := by
  apply takesFront_many
  exact (takesFront_symbol _).bind fun _ => takesFront_name.bind fun _ =>
    (takesFront_arguments levels).bind fun _ => takesFront_pure _

theorem takesFront_defaultValue? (levels : Nat) : TakesFront (defaultValue? levels) :=
  (takesFront_symbol? _).bind fun _ =>
    TakesFront.ite ((takesFront_value _ levels).bind fun _ => takesFront_pure _) (takesFront_pure _)

/-! ## Selections -/

theorem takesFront_fieldHead (levels : Nat) : TakesFront (fieldHead levels) := by
  refine takesFront_located.bind fun found => (takesFront_symbol? _).bind fun _ => ?_
  refine ((takesFront_name.map _).bind fun second => ?_).ite
    ((takesFront_pure _).bind fun second => ?_)
  all_goals
    refine (takesFront_arguments levels).bind fun _ =>
      (takesFront_directives levels).bind fun _ => ?_
    cases second with
    | none => exact takesFront_pure _
    | some name => exact takesFront_pure _

theorem takesFront_spread (levels : Nat) : TakesFront (spread levels) :=
  takesFront_located.bind fun _ => (takesFront_directives levels).bind fun _ => takesFront_pure _

theorem takesFront_inlineHead (levels : Nat) : TakesFront (inlineHead levels) := by
  intro tokens result rest h
  have hbehind : ∀ typeCondition : Option String, TakesFront (do
      let directives ← directives levels
      return InlineFragment.mk ((tokens.head?.map Token.position).getD default) typeCondition
        directives) :=
    fun _ => (takesFront_directives levels).bind fun _ => takesFront_pure _
  -- What the reader returns depends on the tokens in front of it, what it takes does not.
  exact ((takesFront_word? "on").bind fun _ => ((takesFront_name.map some).bind hbehind).ite
    ((takesFront_pure none).bind hbehind)) tokens result rest h

theorem takesFront_selectionWith (levels : Nat) {nested : Reader (List Selection)}
    (h : TakesFront nested) : TakesFront (selectionWith levels nested) := by
  refine (takesFront_take? _).bind fun _ => TakesFront.ite ?_ ?_
  · refine (takesFront_next _).bind fun _ => TakesFront.ite ?_ ?_
    · exact (takesFront_spread levels).bind fun _ => takesFront_pure _
    · exact (takesFront_inlineHead levels).bind fun _ => h.bind fun _ => takesFront_pure _
  · refine (takesFront_fieldHead levels).bind fun _ => (takesFront_next _).bind fun _ => ?_
    exact (h.bind fun _ => takesFront_pure _).ite (takesFront_pure _)

theorem takesFront_selections (levels : Nat) : TakesFront (selections levels) := by
  induction levels with
  | zero => exact takesFront_fail
  | succ levels ih =>
      exact (takesFront_symbol _).bind fun _ =>
        takesFront_someUntil _ (takesFront_selectionWith levels ih)

/-! ## Definitions -/

theorem takesFront_variableDefinition (levels : Nat) : TakesFront (variableDefinition levels) :=
  (takesFront_symbol _).bind fun _ => takesFront_name.bind fun _ => (takesFront_symbol _).bind
    fun _ => (takesFront_typeRef levels).bind fun _ => (takesFront_defaultValue? levels).bind
      fun _ => takesFront_pure _

/-- What stands behind the name of an operation. -/
def operationRest (position : Position) (kind : OperationKind) (name : Option String) :
    Reader Operation := do
  let declared ← bracketed nestingLimit '(' ')' variableDefinition
  let directives ← directives nestingLimit
  let selections ← selections nestingLimit
  return ⟨position, kind, name, declared, directives, selections⟩

theorem takesFront_operationRest (position : Position) (kind : OperationKind)
    (name : Option String) : TakesFront (operationRest position kind name) :=
  (takesFront_bracketed _ _ _ takesFront_variableDefinition).bind fun _ =>
    (takesFront_directives _).bind fun _ => (takesFront_selections _).bind fun _ =>
      takesFront_pure _

/-- An operation without a name, or with the name that stands in front. -/
theorem operationBody_eq (position : Position) (kind : OperationKind) :
    operationBody position kind = next isName >>= fun named =>
      if named then some <$> name >>= operationRest position kind
      else operationRest position kind none :=
  rfl

theorem takesFront_operationBody (position : Position) (kind : OperationKind) :
    TakesFront (operationBody position kind) := by
  rw [operationBody_eq]
  exact (takesFront_next _).bind fun _ =>
    ((takesFront_name.map _).bind (takesFront_operationRest position kind)).ite
      (takesFront_operationRest position kind none)

theorem takesFront_fragmentBody (position : Position) : TakesFront (fragmentBody position) :=
  takesFront_name.bind fun _ => (takesFront_word _).bind fun _ => takesFront_name.bind fun _ =>
    (takesFront_directives _).bind fun _ => (takesFront_selections _).bind fun _ =>
      takesFront_pure _

/-- What stands behind the keyword of a definition. -/
def definitionRest (keyword : String) (position : Position) : Reader Definition :=
  match OperationKind.ofKeyword? keyword with
  | some kind => .operation <$> operationBody position kind
  | none => if keyword = "fragment" then .fragment <$> fragmentBody position else fail

theorem takesFront_definitionRest (keyword : String) (position : Position) :
    TakesFront (definitionRest keyword position) := by
  unfold definitionRest
  split
  · exact (takesFront_operationBody position _).map _
  · exact ((takesFront_fragmentBody position).map _).ite takesFront_fail

/-- A definition without a keyword, or with the keyword that stands in front. -/
theorem definition_eq : definition = peek? >>= fun first =>
    match first with
    | none => fail
    | some token =>
        if isSymbol '\x7b' token then .anonymous token.position <$> selections nestingLimit
        else located >>= fun (keyword, position) => definitionRest keyword position :=
  rfl

theorem takesFront_definition : TakesFront definition := by
  rw [definition_eq]
  refine takesFront_peek?.bind fun first => ?_
  cases first with
  | none => exact takesFront_fail
  | some token =>
      exact ((takesFront_selections _).map _).ite
        (takesFront_located.bind fun (keyword, position) =>
          takesFront_definitionRest keyword position)

/-! ## Names of operations -/

theorem name_of_operationRest {position : Position} {kind : OperationKind} {name : Option String}
    {tokens rest : List Token} {operation : Operation}
    (h : operationRest position kind name tokens = some (operation, rest)) :
    operation.name = name := by
  obtain ⟨declared, _, -, h⟩ := bind_eq_some.mp h
  obtain ⟨directives, _, -, h⟩ := bind_eq_some.mp h
  obtain ⟨selections, _, -, h⟩ := bind_eq_some.mp h
  obtain ⟨rfl, -⟩ := pure_eq_some.mp h
  rfl

/-- The name of an operation is the text of a token. -/
theorem name_of_operationBody {position : Position} {kind : OperationKind}
    {tokens rest : List Token} {operation : Operation} {text : String}
    (h : operationBody position kind tokens = some (operation, rest))
    (hname : operation.name = some text) : ∃ token ∈ tokens, token.lexeme = .name text := by
  rw [operationBody_eq] at h
  obtain ⟨named, middle, hnext, h⟩ := bind_eq_some.mp h
  have hmiddle : middle <:+ tokens := takesFront_next isName tokens named middle hnext
  split at h
  · obtain ⟨found, _, hfound, h⟩ := bind_eq_some.mp h
    obtain ⟨first, hfirst, rfl⟩ := map_eq_some.mp hfound
    obtain ⟨⟨first', position'⟩, _, hlocated, hfirst⟩ := bind_eq_some.mp hfirst
    obtain ⟨rfl, -⟩ := pure_eq_some.mp hfirst
    obtain rfl := located_eq_some.mp hlocated
    rw [name_of_operationRest h, Option.some.injEq] at hname
    exact ⟨_, hmiddle.subset List.mem_cons_self, congrArg Lexeme.name hname⟩
  · rw [name_of_operationRest h] at hname
    exact absurd hname (by simp)

theorem name_of_definitionRest {keyword : String} {position : Position}
    {tokens rest : List Token} {operation : Operation} {text : String}
    (h : definitionRest keyword position tokens = some (.operation operation, rest))
    (hname : operation.name = some text) : ∃ token ∈ tokens, token.lexeme = .name text := by
  cases hkind : OperationKind.ofKeyword? keyword with
  | some kind =>
      simp only [definitionRest, hkind] at h
      obtain ⟨found, hbody, heq⟩ := map_eq_some.mp h
      obtain rfl := Definition.operation.inj heq
      exact name_of_operationBody hbody hname
  | none =>
      simp only [definitionRest, hkind] at h
      split at h
      · obtain ⟨fragment, -, heq⟩ := map_eq_some.mp h
        exact nomatch heq
      · exact absurd h.symm (Option.some_ne_none _)

theorem name_of_definition {tokens rest : List Token} {operation : Operation} {text : String}
    (h : definition tokens = some (.operation operation, rest))
    (hname : operation.name = some text) : ∃ token ∈ tokens, token.lexeme = .name text := by
  rw [definition_eq] at h
  obtain ⟨first, middle, hpeek, h⟩ := bind_eq_some.mp h
  have hmiddle : middle <:+ tokens := takesFront_peek? tokens first middle hpeek
  cases first with
  | none => exact absurd h.symm (Option.some_ne_none _)
  | some token =>
      dsimp only at h
      split at h
      · obtain ⟨selections, -, heq⟩ := map_eq_some.mp h
        exact nomatch heq
      · obtain ⟨⟨keyword, position⟩, behind, hkeyword, h⟩ := bind_eq_some.mp h
        have hbehind : behind <:+ middle := takesFront_located middle _ behind hkeyword
        obtain ⟨token, hmem, hlexeme⟩ := name_of_definitionRest h hname
        exact ⟨token, (hbehind.trans hmiddle).subset hmem, hlexeme⟩

/-- Every item of a repetition is read somewhere in the tokens. -/
theorem exists_of_mem_manyFuel {go : Token → Bool} (htakes : TakesFront reader) {fuel : Nat}
    {tokens rest : List Token} {results : List α}
    (h : manyFuel go reader fuel tokens = some (results, rest)) {result : α}
    (hmem : result ∈ results) :
    ∃ tokens' rest', tokens' <:+ tokens ∧ reader tokens' = some (result, rest') := by
  induction fuel generalizing tokens rest results with
  | zero =>
      obtain ⟨rfl, -⟩ := pure_eq_some.mp h
      exact absurd hmem List.not_mem_nil
  | succ fuel ih =>
      obtain ⟨more, middle, hnext, h⟩ := bind_eq_some.mp h
      have hmiddle : middle <:+ tokens := takesFront_next go tokens more middle hnext
      split at h
      · obtain ⟨first, behind, hfirst, h⟩ := bind_eq_some.mp h
        obtain ⟨others, last, hothers, h⟩ := bind_eq_some.mp h
        obtain ⟨rfl, -⟩ := pure_eq_some.mp h
        rcases List.mem_cons.mp hmem with rfl | hmem
        · exact ⟨middle, behind, hmiddle, hfirst⟩
        · obtain ⟨tokens', rest', hsuffix, hread⟩ := ih hothers hmem
          have hbehind : behind <:+ middle := htakes middle first behind hfirst
          exact ⟨tokens', rest', hsuffix.trans (hbehind.trans hmiddle), hread⟩
      · obtain ⟨rfl, -⟩ := pure_eq_some.mp h
        exact absurd hmem List.not_mem_nil

end Reader

/-! ## Texts of tokens -/

namespace Token

theorem continuesName_of_beginsName {c : Char} (h : beginsName c = true) :
    continuesName c = true := by
  rw [beginsName, Bool.or_eq_true] at h
  rw [continuesName, Bool.or_eq_true]
  refine h.imp_left fun halpha => ?_
  rw [Char.isAlphanum, halpha, Bool.true_or]

theorem number?_ne_name (chars : List Char) (text : String) :
    number? chars ≠ some (.name text) := by
  intro h
  unfold number? at h
  simp only [Option.bind_eq_bind, Option.bind_eq_some_iff] at h
  obtain ⟨whole, -, h⟩ := h
  repeat' split at h
  all_goals simp [Option.bind_eq_some_iff] at h

/-- The text of a first token that is a name consists of characters that can stand in one. -/
theorem isName_of_first? {c : Char} {chars : List Char} {text : String} {length : Nat}
    (h : first? c chars = some (.name text, length)) : IsName text := by
  unfold first? at h
  split at h
  · exact nomatch (Prod.mk.inj (Option.some.inj h)).1
  · split at h
    · next hbegins =>
        obtain ⟨hlexeme, -⟩ := Prod.mk.inj (Option.some.inj h)
        obtain rfl := Lexeme.name.inj hlexeme
        intro d hd
        rw [String.toList_ofList, List.mem_cons] at hd
        rcases hd with rfl | hd
        · exact continuesName_of_beginsName hbegins
        · exact List.all_eq_true.mp List.all_takeWhile d hd
    · split at h
      · obtain ⟨lexeme, hnumber, heq⟩ := Option.map_eq_some_iff.mp h
        rw [(Prod.mk.inj heq).1] at hnumber
        exact absurd hnumber (number?_ne_name _ _)
      · split at h
        · exact nomatch (Prod.mk.inj (Option.some.inj h)).1
        · obtain ⟨found, -, heq⟩ := Option.map_eq_some_iff.mp h
          exact nomatch (Prod.mk.inj heq).1
        · obtain ⟨found, -, heq⟩ := Option.map_eq_some_iff.mp h
          exact nomatch (Prod.mk.inj heq).1
        · exact absurd h.symm (Option.some_ne_none _)

theorem isName_of_ofChars? {position : Position} {chars : List Char} {tokens : List Token}
    (h : ofChars? position chars = some tokens) {token : Token} (hmem : token ∈ tokens)
    {text : String} (hlexeme : token.lexeme = .name text) : IsName text := by
  induction position, chars using ofChars?.induct generalizing tokens with
  | case1 position chars start hskip =>
      rw [ofChars?] at h
      split at h
      · obtain rfl := Option.some.inj h
        exact absurd hmem List.not_mem_nil
      · next hskip' => exact nomatch hskip.symm.trans hskip'
  | case2 position chars start c rest hskip ih =>
      rw [ofChars?] at h
      split at h
      · next hskip' => exact nomatch hskip.symm.trans hskip'
      · next start' c' rest' hskip' =>
          obtain ⟨rfl, hcons⟩ := Prod.mk.inj (hskip.symm.trans hskip')
          obtain ⟨rfl, rfl⟩ := List.cons.inj hcons
          obtain ⟨⟨lexeme, length⟩, hfirst, h⟩ := Option.bind_eq_some_iff.mp h
          obtain ⟨more, hmore, h⟩ := Option.bind_eq_some_iff.mp h
          obtain rfl := Option.some.inj h
          rcases List.mem_cons.mp hmem with rfl | hmem
          · obtain rfl : lexeme = .name text := hlexeme
            exact isName_of_first? hfirst
          · exact ih length hmore hmem

end Token

/-- What a text is read to be a list of was read from tokens whose names are names. -/
theorem Reader.exists_of_mem_run? {α : Type} {reader : Reader α} {go : Token → Bool}
    {text : String} {results : List α} (htakes : TakesFront reader)
    (h : run? (many go reader) text = some results) {result : α} (hmem : result ∈ results) :
    ∃ tokens rest, reader tokens = some (result, rest) ∧
      ∀ token ∈ tokens, ∀ name, token.lexeme = .name name → IsName name := by
  obtain ⟨all, htokens, h⟩ := Option.bind_eq_some_iff.mp h
  obtain ⟨⟨found, left⟩, hmany, h⟩ := Option.bind_eq_some_iff.mp h
  dsimp only at h
  split at h
  · obtain rfl := Option.some.inj h
    obtain ⟨tokens, rest, hsuffix, hread⟩ := exists_of_mem_manyFuel htakes hmany hmem
    exact ⟨tokens, rest, hread, fun token htoken name hlexeme =>
      Token.isName_of_ofChars? htokens (hsuffix.subset htoken) hlexeme⟩
  · exact absurd h.symm (Option.some_ne_none _)

/-- In a parsed document the names of operations are names. -/
theorem Document.isName_of_parse? {text : String} {document : Document}
    (h : Document.parse? text = some document) {operation : Operation}
    (hmem : .operation operation ∈ document.definitions) {name : String}
    (hname : operation.name = some name) : IsName name := by
  obtain ⟨definitions, hrun, h⟩ := Option.bind_eq_some_iff.mp h
  split at h
  · exact absurd h.symm (Option.some_ne_none _)
  · obtain rfl := Option.some.inj h
    obtain ⟨tokens, rest, hread, hnames⟩ :=
      Reader.exists_of_mem_run? Reader.takesFront_definition hrun hmem
    obtain ⟨token, htoken, hlexeme⟩ := Reader.name_of_definition hread hname
    exact hnames token htoken name hlexeme

end Source

/-- Operations that are compiled from parsed documents have names. -/
theorem Schema.isName_of_compile {schema : Schema} {texts : List SourceText}
    {document : CompiledDocument} (h : schema.compile texts = .ok document)
    (hparsed : ∀ text ∈ texts, ∃ written, Source.Document.parse? written = some text.document)
    {operation : Operation} (hmem : operation ∈ document.operations) :
    Source.IsName operation.name := by
  obtain ⟨definitions, hfrom⟩ := Schema.compile_spec h
  obtain ⟨file, source, -, hdefined, hnamed, -⟩ := hfrom.exists_operationSource hmem
  obtain ⟨text, htext, hdefinition⟩ := List.mem_flatMap.mp hdefined
  obtain ⟨written, hwritten⟩ := hparsed text htext
  exact Source.Document.isName_of_parse? hwritten hdefinition hnamed

end QueryShape
