import Mathlib.Data.List.Basic
import Offload.Source.Printer

/-!
# Texts in pieces

The text of a term with the places marked at which values get a name (`Piece.binding`)
and at which one is mentioned (`Piece.mention`): the results before an operation and
the arguments of a label bind, the operands mention, and all else is `Piece.plain`,
whatever characters it has. Put together, the pieces are the text (`OpTerm.text_eq_joined`).
-/

namespace Offload.Source

/-- A piece of the text of a term. -/
inductive Piece
  | plain (text : String)
  /-- A value gets a name. -/
  | binding (name : String)
  /-- A value is referred to by its name. -/
  | mention (name : String)
  deriving DecidableEq

/-- What a piece looks like. -/
def Piece.text : Piece → String
  | plain text => text
  | binding name => "%" ++ name
  | mention name => "%" ++ name

/-- What pieces look like, one after the other. -/
def joined (pieces : List Piece) : String := String.join (pieces.map Piece.text)

/-! ## The pieces of a term -/

/-- Pieces with commas between them. -/
def commaPieces (items : List (List Piece)) : List Piece := [.plain ", "].intercalate items

/-- The names of values. -/
def valuePieces (piece : String → Piece) (names : List String) : List Piece :=
  commaPieces (names.map fun name => [piece name])

/-- The line of an operation, up to its regions. -/
def headPieces (head : Head) : List Piece :=
  (if head.results.isEmpty then [] else valuePieces .binding head.results ++ [.plain " = "])
    ++ .plain (toString head.kind
      ++ (match head.symbol with
        | some name => " " ++ symbolText name
        | none => ""))
    :: (if head.operands.isEmpty then [] else .plain " " :: valuePieces .mention head.operands)
    ++ [.plain (entriesText head.entries
      ++ (if head.types.isEmpty then "" else " : " ++ commas (typeTexts head.types)))]

/-- An argument of a block, with its type. -/
def argPieces (arg : String × TypeTerm) : List Piece :=
  [.binding arg.1, .plain (": " ++ typeText arg.2)]

/-- The line of a label. -/
def labelPieces (label : Label) : List Piece :=
  .plain ("^" ++ label.name)
    :: (if label.args.isEmpty then []
      else .plain "(" :: commaPieces (label.args.map argPieces) ++ [.plain ")"])
    ++ [.plain ":"]

mutual

/-- The lines of an operation that starts in a column. -/
def opPieces (column : Nat) : OpTerm → List Piece
  | .mk head regions =>
    .plain (indentation column) :: headPieces head ++ regionsPieces column regions
      ++ [.plain "\n"]

def opsPieces (column : Nat) : List OpTerm → List Piece
  | [] => []
  | op :: ops => opPieces column op ++ opsPieces column ops

/-- The regions of an operation that starts in a column. -/
def regionsPieces (column : Nat) : List RegionTerm → List Piece
  | [] => []
  | .mk blocks :: regions =>
    .plain " \x7b\n" :: blocksPieces column blocks ++ .plain (indentation column ++ "\x7d")
      :: regionsPieces column regions

/-- The blocks in a region of an operation that starts in a column. -/
def blocksPieces (column : Nat) : List BlockTerm → List Piece
  | [] => []
  | .mk none ops :: blocks => opsPieces (column + 2) ops ++ blocksPieces column blocks
  | .mk (some label) ops :: blocks =>
    .plain (indentation (column + 2)) :: labelPieces label ++ .plain "\n"
      :: opsPieces (column + 4) ops ++ blocksPieces column blocks

end

/-! ## Their texts -/

@[simp]
theorem joined_nil : joined [] = "" := rfl

@[simp]
theorem joined_cons (piece : Piece) (pieces : List Piece) :
    joined (piece :: pieces) = piece.text ++ joined pieces := String.join_cons

@[simp]
theorem joined_append (pieces pieces' : List Piece) :
    joined (pieces ++ pieces') = joined pieces ++ joined pieces' := by
  rw [joined, List.map_append, String.join_append, joined, joined]

theorem joined_commaPieces (items : List (List Piece)) :
    joined (commaPieces items) = commas (items.map joined) := by
  rw [commaPieces, commas]
  induction items with
  | nil => rfl
  | cons item items ih =>
    cases items with
    | nil => simp
    | cons item' items =>
      rw [List.map_cons] at ih
      rw [List.intercalate_cons_cons, joined_append, joined_append, ih, List.map_cons,
        List.map_cons, String.intercalate_cons_cons]
      rfl

theorem joined_valuePieces {piece : String → Piece} (h : ∀ name, (piece name).text = "%" ++ name)
    (names : List String) : joined (valuePieces piece names) = valuesText names := by
  rw [valuePieces, joined_commaPieces, List.map_map, valuesText]
  congr 2
  funext name
  simp [h]

theorem joined_headPieces (head : Head) : joined (headPieces head) = headText head := by
  have hresults : joined (if head.results.isEmpty then [] else
      valuePieces .binding head.results ++ [.plain " = "]) =
        if head.results.isEmpty then "" else valuesText head.results ++ " = " := by
    split
    · rfl
    · rw [joined_append, joined_valuePieces fun _ => rfl]
      rfl
  have hoperands : joined (if head.operands.isEmpty then [] else
      .plain " " :: valuePieces .mention head.operands) =
        if head.operands.isEmpty then "" else " " ++ valuesText head.operands := by
    split
    · rfl
    · rw [joined_cons, joined_valuePieces fun _ => rfl]
      rfl
  cases hsymbol : head.symbol <;>
    simp only [headPieces, headText, joined_append, joined_cons, hresults, hoperands, hsymbol,
      Piece.text, joined_nil, String.append_assoc, String.append_empty]

theorem joined_labelPieces (label : Label) : joined (labelPieces label) = labelText label := by
  have hitem (arg : String × TypeTerm) :
      joined (argPieces arg) = s!"%{arg.1}: " ++ typeText arg.2 := by
    simp only [argPieces, joined_cons, joined_nil, Piece.text, String.append_assoc,
      String.append_empty]
    rfl
  have hargs : joined (if label.args.isEmpty then [] else
      .plain "(" :: commaPieces (label.args.map argPieces) ++ [.plain ")"]) =
        if label.args.isEmpty then ""
        else "(" ++ commas (label.args.map fun arg => s!"%{arg.1}: " ++ typeText arg.2) ++ ")" := by
    split
    · rfl
    · rw [joined_append, joined_cons, joined_commaPieces, List.map_map]
      simp only [Function.comp_def, hitem]
      rfl
  simp only [labelPieces, labelText, joined_append, joined_cons, hargs, Piece.text, joined_nil,
    String.append_assoc, String.append_empty]

mutual

theorem joined_opPieces (column : Nat) : ∀ term, joined (opPieces column term) = opText column term
  | .mk head regions => by
    simp [opPieces, opText, joined_headPieces, joined_regionsPieces column regions, Piece.text,
      String.append_assoc]

theorem joined_opsPieces (column : Nat) :
    ∀ terms, joined (opsPieces column terms) = opTexts column terms
  | [] => rfl
  | term :: terms => by
    rw [opsPieces, opTexts, joined_append, joined_opPieces column term,
      joined_opsPieces column terms]

theorem joined_regionsPieces (column : Nat) :
    ∀ terms, joined (regionsPieces column terms) = regionTexts column terms
  | [] => rfl
  | .mk blocks :: terms => by
    simp [regionsPieces, regionTexts, joined_blocksPieces column blocks,
      joined_regionsPieces column terms, Piece.text, String.append_assoc]

theorem joined_blocksPieces (column : Nat) :
    ∀ terms, joined (blocksPieces column terms) = blockTexts column terms
  | [] => rfl
  | .mk none ops :: terms => by
    rw [blocksPieces, blockTexts, joined_append, joined_opsPieces _ ops,
      joined_blocksPieces column terms]
  | .mk (some label) ops :: terms => by
    simp [blocksPieces, blockTexts, joined_labelPieces, joined_opsPieces _ ops,
      joined_blocksPieces column terms, Piece.text, String.append_assoc]

end

end Offload.Source

namespace Offload

/-- The pieces of the text of an operation. -/
def OpTerm.pieces (term : OpTerm) : List Source.Piece := Source.opPieces 0 term

theorem OpTerm.text_eq_joined (term : OpTerm) : term.text = Source.joined term.pieces :=
  (Source.joined_opPieces 0 term).symm

end Offload
