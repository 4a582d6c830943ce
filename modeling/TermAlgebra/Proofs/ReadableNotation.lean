import TermAlgebra.Display
import TermAlgebra.Proofs.NotationTokens

/-!
The plain notation with operators can be read in one way only: the text of an expression determines
its heads, the order of its arguments and the texts of its generators. An operator is written bare
where nothing else can continue it, and in parentheses between operators, so it matters what may
follow a text. Two texts are compared along with all that follows them, and the induction is on the
expression that one of them shows.
-/
namespace TermAlgebra.Display

/-- What the notation is to tell of an expression: the heads, and at the leaves the texts that the
generators wrap. -/
inductive Skeleton where
  | leaf (text : String)
  | node (head : String) (children : List Skeleton)

/-- The text that a generator with these arguments wraps. -/
def wrappedText? : List Value → Option String
  | .text characters _ :: _ => some characters
  | _ => none

mutual

/-- The skeleton of an expression whose arguments are expressions and whose generators wrap texts.
-/
def skeleton? : Value → Option Skeleton
  | .expr head args _ _ =>
      if head = generatorHead then (wrappedText? args).map .leaf
      else (skeletonAll? args).map (.node head)
  | _ => none

def skeletonAll? : List Value → Option (List Skeleton)
  | [] => some []
  | value :: rest => do return (← skeleton? value) :: (← skeletonAll? rest)

end

/-- The characters that hold the parts of a text together. -/
def marks : List Char := ['\x7b', '\x7d', '(', ')', ',', '⋅', '⊗']

/-- Letters, digits and low lines are no marks, so this is true of every identifier. -/
def Unmarked (text : String) : Prop := ∀ c ∈ text.toList, c ∉ marks

theorem unmarked_of_continuesName {text : String}
    (h : ∀ c ∈ text.toList, Token.continuesName c = true) : Unmarked text := by
  have hmarks : ∀ c ∈ marks, Token.continuesName c = false := by
    simp [marks, Token.continuesName, Token.startsName]
  intro c hc hmark
  exact Bool.eq_false_iff.mp (hmarks c hmark) (h c hc)

namespace Skeleton

/-- No text has a mark in it, and none of the leaves is empty. -/
inductive Legible : Skeleton → Prop
  | leaf {text} (hnonempty : text ≠ "") (htext : Unmarked text) : Legible (.leaf text)
  | node {head children} (hhead : Unmarked head) (hchildren : ∀ child ∈ children, Legible child) :
      Legible (.node head children)

/-- The operator that stands between the children, if it does. -/
def sign? (head : String) (arity : Nat) : Option Char :=
  if arity < 2 then none
  else if head = "compose" then some '⋅'
  else if head = "otimes" then some '⊗'
  else none

mutual

/-- The characters that show the skeleton, in parentheses or braces where needed. -/
def drawn (inside : Bool) : Skeleton → List Char
  | .leaf text => text.toList
  | .node head children =>
      match sign? head children.length with
      | none => head.toList ++ '\x7b' :: ([','].intercalate (drawnAll false children) ++ ['\x7d'])
      | some sign =>
          let body := [sign].intercalate (drawnAll true children)
          if inside then '(' :: (body ++ [')']) else body

def drawnAll (inside : Bool) : List Skeleton → List (List Char)
  | [] => []
  | child :: rest => drawn inside child :: drawnAll inside rest

end

end Skeleton

open Skeleton

/-! ### The notation draws the skeleton -/

theorem operator_eq_sign (head : String) (arity : Nat) :
    (if arity < 2 then none else plainOperators head) =
      (sign? head arity).map String.singleton := by
  rw [sign?]
  split
  · rfl
  · unfold plainOperators
    split
    · rfl
    · rfl
    next hcompose hotimes =>
      rw [if_neg hcompose, if_neg hotimes]
      rfl

theorem exists_of_wrappedText? {args : List Value} {characters : String}
    (h : wrappedText? args = some characters) :
    ∃ symbolic rest, args = .text characters symbolic :: rest := by
  unfold wrappedText? at h
  split at h
  next symbolic rest =>
    cases h
    exact ⟨symbolic, rest, rfl⟩
  next => cases h

theorem length_of_skeletonAll? {values : List Value} {children : List Skeleton}
    (h : skeletonAll? values = some children) : children.length = values.length := by
  induction values generalizing children with
  | nil =>
    cases h
    rfl
  | cons value rest ih =>
    obtain ⟨child, -, h⟩ := Option.bind_eq_some_iff.mp h
    obtain ⟨others, hothers, h⟩ := Option.bind_eq_some_iff.mp h
    cases h
    rw [List.length_cons, List.length_cons, ih hothers]

mutual

theorem render_eq_drawn (inside : Bool) (value : Value) {skeleton : Skeleton}
    (h : skeleton? value = some skeleton) :
    render plain plainOperators inside value = .ok (String.ofList (skeleton.drawn inside)) := by
  match value with
  | .expr head args typeArgs sort =>
    rw [skeleton?] at h
    split at h
    next hgenerator =>
      obtain ⟨characters, hcharacters, rfl⟩ := Option.map_eq_some_iff.mp h
      obtain ⟨symbolic, rest, rfl⟩ := exists_of_wrappedText? hcharacters
      rw [render, if_pos hgenerator, Value.datum, if_pos hgenerator, drawn, String.ofList_toList]
      rfl
    next hcompound =>
      obtain ⟨children, hchildren, rfl⟩ := Option.map_eq_some_iff.mp h
      rw [render, if_neg hcompound, operator_eq_sign, ← length_of_skeletonAll? hchildren, drawn]
      cases sign? head children.length with
      | none =>
        rw [Option.map_none]
        dsimp only
        rw [renderAll_eq_drawn false args hchildren]
        refine congrArg Except.ok (String.toList_injective ?_)
        simp [plain, String.toList_intercalate, Function.comp_def]
      | some sign =>
        rw [Option.map_some]
        dsimp only
        rw [renderAll_eq_drawn true args hchildren]
        refine congrArg Except.ok (String.toList_injective ?_)
        cases inside <;> simp [plain, String.toList_intercalate, Function.comp_def]
  | .null | .bool _ | .int _ | .float _ | .text _ _ | .list _ | .tuple _ | .dict _ | .fin _ _ =>
    cases h

theorem renderAll_eq_drawn (inside : Bool) (values : List Value) {children : List Skeleton}
    (h : skeletonAll? values = some children) :
    renderAll plain plainOperators inside values =
      .ok ((drawnAll inside children).map String.ofList) := by
  match values with
  | [] =>
    cases h
    rfl
  | value :: rest =>
    obtain ⟨child, hchild, h⟩ := Option.bind_eq_some_iff.mp h
    obtain ⟨others, hothers, h⟩ := Option.bind_eq_some_iff.mp h
    cases h
    rw [renderAll, render_eq_drawn inside value hchild, renderAll_eq_drawn inside rest hothers]
    rfl

end

/-! ### The skeleton is read off its drawing -/

/-- A text without marks ends where the first mark stands. -/
theorem unmarked_append_inj {text other : String} {rest rest' : List Char} (htext : Unmarked text)
    (hother : Unmarked other) (hrest : ∀ c ∈ rest.head?, c ∈ marks)
    (hrest' : ∀ c ∈ rest'.head?, c ∈ marks) (h : text.toList ++ rest = other.toList ++ rest') :
    text = other ∧ rest = rest' := by
  suffices hlists : text.toList = other.toList ∧ rest = rest' from
    ⟨String.toList_injective hlists.1, hlists.2⟩
  unfold Unmarked at htext hother
  generalize text.toList = characters at *
  generalize other.toList = characters' at *
  induction characters generalizing characters' with
  | nil =>
    cases characters' with
    | nil => exact ⟨rfl, h⟩
    | cons c characters' =>
      obtain rfl : rest = c :: (characters' ++ rest') := h
      exact absurd (hrest c rfl) (hother c List.mem_cons_self)
  | cons c characters ih =>
    cases characters' with
    | nil =>
      obtain rfl : c :: (characters ++ rest) = rest' := h
      exact absurd (hrest' c rfl) (htext c List.mem_cons_self)
    | cons c' characters' =>
      obtain ⟨rfl, htail⟩ := List.cons.inj h
      obtain ⟨rfl, hrest⟩ := ih (fun d hd => htext d (List.mem_cons_of_mem _ hd)) characters'
        (fun d hd => hother d (List.mem_cons_of_mem _ hd)) htail
      exact ⟨rfl, hrest⟩

namespace Skeleton

/-- What stands between texts: an operator, or else a comma. -/
def separators (inside : Bool) : List Char := if inside then ['⋅', '⊗'] else [',']

/-- What can stand after an operator's last text. -/
def closers : List Char := [',', '\x7d', ')']

/-- A text that is not continued by what follows. -/
def Stops (inside : Bool) (rest : List Char) : Prop :=
  ∀ c ∈ rest.head?, c ∈ separators inside ++ closers

/-- A row of texts that is not continued by what follows. -/
def Closes (inside : Bool) (rest : List Char) : Prop :=
  ∀ c ∈ rest.head?, c ∈ closers ∧ c ∉ separators inside

/-- The drawing can be told from any other one in front of whatever follows. -/
def Readable (inside : Bool) (skeleton : Skeleton) : Prop :=
  ∀ ⦃other rest rest'⦄, Legible other → Stops inside rest → Stops inside rest' →
    skeleton.drawn inside ++ rest = other.drawn inside ++ rest' → skeleton = other ∧ rest = rest'

theorem stops_cons_iff {inside : Bool} {c : Char} {rest : List Char} :
    Stops inside (c :: rest) ↔ c ∈ separators inside ++ closers := by simp [Stops]

theorem closes_cons_iff {inside : Bool} {c : Char} {rest : List Char} :
    Closes inside (c :: rest) ↔ c ∈ closers ∧ c ∉ separators inside := by simp [Closes]

theorem Closes.stops {inside : Bool} {rest : List Char} (h : Closes inside rest) :
    Stops inside rest := fun c hc => List.mem_append_right _ (h c hc).1

theorem Stops.marked {inside : Bool} {rest : List Char} (h : Stops inside rest) :
    ∀ c ∈ rest.head?, c ∈ marks := by
  have hmarks : ∀ inside, separators inside ++ closers ⊆ marks := by decide
  exact fun c hc => hmarks inside (h c hc)

/-- Where no comma is missing, no operator is. -/
theorem Stops.closes {rest : List Char} (h : Stops false rest) : Closes true rest := by
  have hclosers : ∀ c ∈ separators false ++ closers, c ∈ closers ∧ c ∉ separators true := by
    simp [separators, closers]
  exact fun c hc => hclosers c (h c hc)

theorem intercalate_drawnAll (inside : Bool) (separator : Char) (child : Skeleton)
    (children : List Skeleton) :
    [separator].intercalate (drawnAll inside (child :: children)) =
      child.drawn inside ++ children.flatMap fun child => separator :: child.drawn inside := by
  induction children generalizing child with
  | nil => simp [drawnAll]
  | cons next children ih =>
    rw [drawnAll, drawnAll, List.intercalate_cons_cons, ← drawnAll, ih]
    simp

theorem stops_flatMap {inside : Bool} {separator : Char}
    (hseparator : separator ∈ separators inside) (children : List Skeleton) {rest : List Char}
    (hrest : Closes inside rest) :
    Stops inside ((children.flatMap fun child => separator :: child.drawn inside) ++ rest) := by
  cases children with
  | nil => exact hrest.stops
  | cons child children => exact stops_cons_iff.mpr (List.mem_append_left _ hseparator)

section Rows

variable {inside : Bool} {separator separator' : Char} {rest rest' : List Char}

/-- Texts with separators before them are read one after the other. -/
theorem readable_separated {children others : List Skeleton}
    (hchildren : ∀ child ∈ children, Readable inside child)
    (hothers : ∀ other ∈ others, Legible other) (hseparator : separator ∈ separators inside)
    (hseparator' : separator' ∈ separators inside) (hrest : Closes inside rest)
    (hrest' : Closes inside rest')
    (h : (children.flatMap fun child => separator :: child.drawn inside) ++ rest =
      (others.flatMap fun other => separator' :: other.drawn inside) ++ rest') :
    children = others ∧ rest = rest' ∧ (children ≠ [] → separator = separator') := by
  induction children generalizing others with
  | nil =>
    cases others with
    | nil => exact ⟨rfl, h, fun hne => absurd rfl hne⟩
    | cons other others =>
      rw [List.flatMap_nil, List.nil_append, List.flatMap_cons, List.cons_append,
        List.cons_append] at h
      exact absurd hseparator' (closes_cons_iff.mp (h ▸ hrest)).2
  | cons child children ih =>
    cases others with
    | nil =>
      rw [List.flatMap_nil, List.nil_append, List.flatMap_cons, List.cons_append,
        List.cons_append] at h
      exact absurd hseparator (closes_cons_iff.mp (h ▸ hrest')).2
    | cons other others =>
      rw [List.forall_mem_cons] at hchildren hothers
      rw [List.flatMap_cons, List.flatMap_cons, List.cons_append, List.cons_append,
        List.cons_append, List.cons_append, List.append_assoc, List.append_assoc] at h
      obtain ⟨rfl, hfirst⟩ := List.cons.inj h
      obtain ⟨rfl, htail⟩ := hchildren.1 hothers.1 (stops_flatMap hseparator children hrest)
        (stops_flatMap hseparator others hrest') hfirst
      obtain ⟨rfl, hrest, -⟩ := ih hchildren.2 hothers.2 htail
      exact ⟨rfl, hrest, fun _ => rfl⟩

/-- A row of texts is read as a whole. -/
theorem readable_row {first first' : Skeleton} {children others : List Skeleton}
    (hchildren : ∀ child ∈ first :: children, Readable inside child)
    (hothers : ∀ other ∈ first' :: others, Legible other)
    (hseparator : separator ∈ separators inside) (hseparator' : separator' ∈ separators inside)
    (hrest : Closes inside rest) (hrest' : Closes inside rest')
    (h : [separator].intercalate (drawnAll inside (first :: children)) ++ rest =
      [separator'].intercalate (drawnAll inside (first' :: others)) ++ rest') :
    first :: children = first' :: others ∧ rest = rest' ∧
      (children ≠ [] → separator = separator') := by
  rw [intercalate_drawnAll, intercalate_drawnAll, List.append_assoc, List.append_assoc] at h
  rw [List.forall_mem_cons] at hchildren hothers
  obtain ⟨rfl, htail⟩ := hchildren.1 hothers.1 (stops_flatMap hseparator children hrest)
    (stops_flatMap hseparator' others hrest') h
  obtain ⟨rfl, hrest, hsame⟩ :=
    readable_separated hchildren.2 hothers.2 hseparator hseparator' hrest hrest' htail
  exact ⟨rfl, hrest, hsame⟩

end Rows

section Nodes

variable {head head' : String} {children : List Skeleton} {sign : Char} {inside : Bool}

theorem sign?_injective {arity arity' : Nat} (h : sign? head arity = some sign)
    (h' : sign? head' arity' = some sign) : head = head' := by
  grind [sign?]

/-- An operator stands between two texts or more. -/
theorem exists_of_sign? (h : sign? head children.length = some sign) :
    ∃ first second rest, children = first :: second :: rest := by
  match children with
  | [] | [_] => cases h
  | first :: second :: rest => exact ⟨first, second, rest, rfl⟩

theorem mem_separators_of_sign? {arity : Nat} (h : sign? head arity = some sign) :
    sign ∈ separators true := by
  grind [sign?, separators]

theorem drawn_before (h : sign? head children.length = none) :
    (node head children).drawn inside =
      head.toList ++ '\x7b' :: ([','].intercalate (drawnAll false children) ++ ['\x7d']) := by
  rw [drawn, h]

theorem drawn_between (h : sign? head children.length = some sign) :
    (node head children).drawn false = [sign].intercalate (drawnAll true children) := by
  rw [drawn, h]
  rfl

theorem drawn_enclosed (h : sign? head children.length = some sign) :
    (node head children).drawn true =
      '(' :: ([sign].intercalate (drawnAll true children) ++ [')']) := by
  rw [drawn, h]
  rfl

end Nodes

/-- No text begins like what comes after a text. -/
theorem drawn_opens {skeleton : Skeleton} (h : skeleton.Legible) (inside : Bool) :
    ∃ c characters, skeleton.drawn inside = c :: characters ∧ c ∉ closers := by
  have hclosers : closers ⊆ marks := by decide
  induction h generalizing inside with
  | @leaf text hnonempty htext =>
    cases hlist : text.toList with
    | nil => exact absurd (String.toList_eq_nil_iff.mp hlist) hnonempty
    | cons c characters =>
      refine ⟨c, characters, hlist, fun hc => ?_⟩
      exact htext c (hlist ▸ List.mem_cons_self) (hclosers hc)
  | @node head children hhead _ ih =>
    cases hsign : sign? head children.length with
    | none =>
      rw [drawn_before hsign]
      cases hlist : head.toList with
      | nil => exact ⟨_, _, rfl, by decide⟩
      | cons c characters =>
        refine ⟨c, _, rfl, fun hc => ?_⟩
        exact hhead c (hlist ▸ List.mem_cons_self) (hclosers hc)
    | some sign =>
      cases inside with
      | true => exact ⟨_, _, drawn_enclosed hsign, by decide⟩
      | false =>
        obtain ⟨first, second, rest, rfl⟩ := exists_of_sign? hsign
        obtain ⟨c, characters, hfirst, hc⟩ := ih first List.mem_cons_self true
        rw [drawn_between hsign, intercalate_drawnAll, hfirst]
        exact ⟨c, _, rfl, hc⟩

/-- Arguments in braces are read as a whole, also where there are none. -/
theorem readable_arguments {children others : List Skeleton} {rest rest' : List Char}
    (hchildren : ∀ child ∈ children, Readable false child)
    (hlegible : ∀ child ∈ children, Legible child) (hothers : ∀ other ∈ others, Legible other)
    (h : [','].intercalate (drawnAll false children) ++ '\x7d' :: rest =
      [','].intercalate (drawnAll false others) ++ '\x7d' :: rest') :
    children = others ∧ rest = rest' := by
  have hcomma : ',' ∈ separators false := by decide
  have hcloses : ∀ rest, Closes false ('\x7d' :: rest) := fun rest =>
    closes_cons_iff.mpr (by decide)
  have hopen : ∀ {first : Skeleton} {children rest rest'}, first.Legible →
      [','].intercalate (drawnAll false (first :: children)) ++ rest ≠ '\x7d' :: rest' := by
    intro first children rest rest' hfirst h
    obtain ⟨c, characters, hdrawn, hc⟩ := drawn_opens hfirst false
    rw [intercalate_drawnAll, hdrawn] at h
    rw [(List.cons.inj h).1] at hc
    exact hc (by decide)
  match children, others with
  | [], [] => exact ⟨rfl, (List.cons.inj h).2⟩
  | [], other :: others => exact absurd h.symm (hopen (hothers other List.mem_cons_self))
  | child :: children, [] => exact absurd h (hopen (hlegible child List.mem_cons_self))
  | child :: children, other :: others =>
    obtain ⟨hrow, hrest, -⟩ :=
      readable_row hchildren hothers hcomma hcomma (hcloses rest) (hcloses rest') h
    exact ⟨hrow, (List.cons.inj hrest).2⟩

/-- How a text between operators, along with what follows, falls into an unmarked part and what
comes from the first mark on. -/
inductive Cut (rest : List Char) : Skeleton → String → List Char → Prop
  | leaf {text} : Cut rest (.leaf text) text rest
  | before {head children} (hsign : sign? head children.length = none) :
      Cut rest (.node head children) head
        ('\x7b' :: ([','].intercalate (drawnAll false children) ++ '\x7d' :: rest))
  | enclosed {head children sign} (hsign : sign? head children.length = some sign) :
      Cut rest (.node head children) ""
        ('(' :: ([sign].intercalate (drawnAll true children) ++ ')' :: rest))

theorem exists_cut {skeleton : Skeleton} (h : skeleton.Legible) {rest : List Char}
    (hrest : Stops true rest) :
    ∃ text tail, Cut rest skeleton text tail ∧ Unmarked text ∧ (∀ c ∈ tail.head?, c ∈ marks) ∧
      skeleton.drawn true ++ rest = text.toList ++ tail := by
  have hbrace : '\x7b' ∈ marks := by decide
  have hparenthesis : '(' ∈ marks := by decide
  cases h with
  | leaf _ htext => exact ⟨_, _, .leaf, htext, hrest.marked, rfl⟩
  | @node head children hhead _ =>
    cases hsign : sign? head children.length with
    | none =>
      refine ⟨_, _, .before hsign, hhead, by simpa using hbrace, ?_⟩
      rw [drawn_before hsign]
      simp
    | some sign =>
      refine ⟨_, _, .enclosed hsign, by simp [Unmarked], by simpa using hparenthesis, ?_⟩
      rw [drawn_enclosed hsign]
      simp

/-- The parts that an expression is made of can all be read. -/
def PartsReadable : Skeleton → Prop
  | .leaf _ => True
  | .node _ children => ∀ child ∈ children, ∀ inside, Readable inside child

/-- Two rows with their operators are read as the nodes that they show. -/
theorem readable_operators {head head' : String} {children others : List Skeleton}
    {sign sign' : Char} {rest rest' : List Char}
    (hparts : PartsReadable (.node head children)) (hothers : ∀ other ∈ others, Legible other)
    (hsign : sign? head children.length = some sign)
    (hsign' : sign? head' others.length = some sign') (hrest : Closes true rest)
    (hrest' : Closes true rest')
    (h : [sign].intercalate (drawnAll true children) ++ rest =
      [sign'].intercalate (drawnAll true others) ++ rest') :
    node head children = node head' others ∧ rest = rest' := by
  obtain ⟨first, second, others, rfl⟩ := exists_of_sign? hsign
  obtain ⟨first', second', others', rfl⟩ := exists_of_sign? hsign'
  obtain ⟨hrow, hrest, hsame⟩ := readable_row (fun child hchild => hparts child hchild true) hothers
    (mem_separators_of_sign? hsign) (mem_separators_of_sign? hsign') hrest hrest' h
  obtain rfl := hsame (List.cons_ne_nil _ _)
  rw [hrow, sign?_injective hsign hsign']
  exact ⟨rfl, hrest⟩

theorem readable_inside {skeleton : Skeleton} (hlegible : skeleton.Legible)
    (hparts : PartsReadable skeleton) : Readable true skeleton := by
  intro other rest rest' hother hrest hrest' h
  obtain ⟨text, tail, hcut, htext, htail, hdrawn⟩ := exists_cut hlegible hrest
  obtain ⟨text', tail', hcut', htext', htail', hdrawn'⟩ := exists_cut hother hrest'
  rw [hdrawn, hdrawn'] at h
  obtain ⟨rfl, rfl⟩ := unmarked_append_inj htext htext' htail htail' h
  have hbrace : '\x7b' ∉ separators true ++ closers := by decide
  have hparenthesis : '(' ∉ separators true ++ closers := by decide
  have hcloses : ∀ rest, Closes true (')' :: rest) := fun rest => closes_cons_iff.mpr (by decide)
  cases hcut with
  | leaf =>
    cases hcut' with
    | leaf => exact ⟨rfl, rfl⟩
    | before => exact absurd (stops_cons_iff.mp hrest) hbrace
    | enclosed => exact absurd (stops_cons_iff.mp hrest) hparenthesis
  | @before head children hsign =>
    generalize htails : '\x7b' :: _ = tail at hcut'
    cases hcut' with
    | leaf => exact absurd (stops_cons_iff.mp (htails ▸ hrest')) hbrace
    | @before _ others hsign' =>
      cases hlegible with
      | node _ hlegible =>
        cases hother with
        | node _ hothers =>
          obtain ⟨rfl, hrest⟩ := readable_arguments (fun child hchild => hparts child hchild false)
            hlegible hothers (List.cons.inj htails).2
          exact ⟨rfl, hrest⟩
    | enclosed => cases htails
  | @enclosed head children sign hsign =>
    generalize htexts : "" = text at hcut'
    generalize htails : '(' :: _ = tail at hcut'
    cases hcut' with
    | leaf => exact absurd (stops_cons_iff.mp (htails ▸ hrest')) hparenthesis
    | before => cases htails
    | @enclosed head' others sign' hsign' =>
      cases hother with
      | node _ hothers =>
        obtain ⟨hnodes, hrest⟩ := readable_operators hparts hothers hsign hsign' (hcloses rest)
          (hcloses rest') (List.cons.inj htails).2
        exact ⟨hnodes, (List.cons.inj hrest).2⟩

/-- A text is drawn alike everywhere, unless it has an operator of its own. -/
theorem drawn_alike_or_between (skeleton : Skeleton) :
    skeleton.drawn false = skeleton.drawn true ∨
      ∃ head children sign, skeleton = .node head children ∧
        sign? head children.length = some sign := by
  cases skeleton with
  | leaf text => exact .inl rfl
  | node head children =>
    cases hsign : sign? head children.length with
    | none => exact .inl (by rw [drawn_before hsign, drawn_before hsign])
    | some sign => exact .inr ⟨head, children, sign, rfl, hsign⟩

/-- A row of texts begins with the first of them and the operator after that. -/
theorem exists_drawn_between {head : String} {children : List Skeleton} {sign : Char}
    (hsign : sign? head children.length = some sign) (rest : List Char) :
    ∃ first ∈ children, ∃ more,
      (node head children).drawn false ++ rest = first.drawn true ++ sign :: more := by
  obtain ⟨first, second, children, rfl⟩ := exists_of_sign? hsign
  rw [drawn_between hsign, intercalate_drawnAll, List.append_assoc, List.flatMap_cons,
    List.cons_append, List.cons_append]
  exact ⟨first, List.mem_cons_self, _, rfl⟩

/-- An operator does not end a text that is not between operators. -/
theorem not_stops_of_sign? {head : String} {arity : Nat} {sign : Char}
    (hsign : sign? head arity = some sign) (more : List Char) :
    Stops true (sign :: more) ∧ ¬Stops false (sign :: more) := by
  have hseparators : ∀ c ∈ separators true, c ∉ separators false ++ closers := by
    simp [separators, closers]
  have hmem := mem_separators_of_sign? hsign
  exact ⟨stops_cons_iff.mpr (List.mem_append_left _ hmem),
    fun h => hseparators sign hmem (stops_cons_iff.mp h)⟩

theorem readable_outside {skeleton : Skeleton} (hlegible : skeleton.Legible)
    (hparts : PartsReadable skeleton) : Readable false skeleton := by
  intro other rest rest' hother hrest hrest' h
  rcases drawn_alike_or_between skeleton with halike | ⟨head, children, sign, rfl, hsign⟩
  · rw [halike] at h
    have hinside : Readable true skeleton := readable_inside hlegible hparts
    rcases drawn_alike_or_between other with halike' | ⟨head', others, sign', rfl, hsign'⟩
    · rw [halike'] at h
      exact hinside hother hrest.closes.stops hrest'.closes.stops h
    · obtain ⟨first, hfirst, more, hmore⟩ := exists_drawn_between hsign' rest'
      obtain ⟨hstops, hnot⟩ := not_stops_of_sign? hsign' more
      cases hother with
      | node _ hothers =>
        rw [hmore] at h
        obtain ⟨-, rfl⟩ := hinside (hothers first hfirst) hrest.closes.stops hstops h
        exact absurd hrest hnot
  · rcases drawn_alike_or_between other with halike' | ⟨head', others, sign', rfl, hsign'⟩
    · obtain ⟨first, hfirst, more, hmore⟩ := exists_drawn_between hsign rest
      obtain ⟨hstops, hnot⟩ := not_stops_of_sign? hsign more
      rw [hmore, halike'] at h
      obtain ⟨-, rfl⟩ := hparts first hfirst true hother hstops hrest'.closes.stops h
      exact absurd hrest' hnot
    · rw [drawn_between hsign, drawn_between hsign'] at h
      cases hother with
      | node _ hothers =>
        exact readable_operators hparts hothers hsign hsign' hrest.closes hrest'.closes h

theorem readable_of_parts {skeleton : Skeleton} (hlegible : skeleton.Legible)
    (hparts : PartsReadable skeleton) (inside : Bool) : Readable inside skeleton := by
  cases inside with
  | true => exact readable_inside hlegible hparts
  | false => exact readable_outside hlegible hparts

/-- Wherever it stands, it can be told what a text shows and where it ends. -/
theorem Legible.readable {skeleton : Skeleton} (h : skeleton.Legible) :
    ∀ inside, Readable inside skeleton := by
  induction h with
  | leaf hnonempty htext => exact readable_of_parts (.leaf hnonempty htext) trivial
  | node hhead hchildren ih => exact readable_of_parts (.node hhead hchildren) ih

end Skeleton

/-- Two expressions have the same text exactly when they have the same heads in the same order and
the same texts at the leaves. -/
theorem render_readable {value other : Value} {skeleton skeleton' : Skeleton}
    (hvalue : skeleton? value = some skeleton) (hother : skeleton? other = some skeleton')
    (hlegible : skeleton.Legible) (hlegible' : skeleton'.Legible) (inside : Bool) :
    ∃ text text', render plain plainOperators inside value = .ok text ∧
      render plain plainOperators inside other = .ok text' ∧
      (text = text' ↔ skeleton = skeleton') := by
  refine ⟨_, _, render_eq_drawn inside value hvalue, render_eq_drawn inside other hother, ?_⟩
  constructor
  · intro h
    have hdrawn : skeleton.drawn inside ++ [] = skeleton'.drawn inside ++ [] := by
      rw [String.ofList_injective h]
    have hstops : Stops inside [] := fun c hc => by cases hc
    exact (hlegible.readable inside hlegible' hstops hstops hdrawn).1
  · intro h
    rw [h]

/-- The two ways to compose three arrows have different texts. -/
theorem render_readable_regrouped :
    let arrow (text : String) := Value.expr generatorHead [.str text] [] "Hom"
    let composite (first second : Value) := Value.expr "compose" [first, second] [] "Hom"
    let left := composite (composite (arrow "f") (arrow "g")) (arrow "h")
    let right := composite (arrow "f") (composite (arrow "g") (arrow "h"))
    ∃ text text', render plain plainOperators false left = .ok text ∧
      render plain plainOperators false right = .ok text' ∧ text ≠ text' := by
  intro arrow composite left right
  have hletters : ∀ text ∈ ["compose", "f", "g", "h"], ∀ c ∈ text.toList,
      Token.continuesName c = true := by
    simp [Token.continuesName, Token.startsName]
  have hleaf : ∀ text ∈ ["f", "g", "h"], (Skeleton.leaf text).Legible := fun text htext =>
    .leaf (by revert text; decide) (unmarked_of_continuesName (hletters text (by simp [htext])))
  have hcomposite : ∀ {first second : Skeleton}, first.Legible → second.Legible →
      (Skeleton.node "compose" [first, second]).Legible := fun hfirst hsecond =>
    .node (unmarked_of_continuesName (hletters "compose" (by simp))) (by simp [hfirst, hsecond])
  have hleft : skeleton? left =
      some (.node "compose" [.node "compose" [.leaf "f", .leaf "g"], .leaf "h"]) := rfl
  have hright : skeleton? right =
      some (.node "compose" [.leaf "f", .node "compose" [.leaf "g", .leaf "h"]]) := rfl
  obtain ⟨text, text', htext, htext', hiff⟩ := render_readable hleft hright
    (hcomposite (hcomposite (hleaf "f" (by decide)) (hleaf "g" (by decide)))
      (hleaf "h" (by decide)))
    (hcomposite (hleaf "f" (by decide)) (hcomposite (hleaf "g" (by decide))
      (hleaf "h" (by decide)))) false
  refine ⟨text, text', htext, htext', fun h => ?_⟩
  cases hiff.mp h

end TermAlgebra.Display
