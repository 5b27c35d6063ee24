import Splice.Proofs.Body.Lowering
import Splice.Proofs.Phrase.Parsed
import Splice.Proofs.Phrase.TypeOnly
import Splice.Proofs.Printing.Placement

/-!
# Groups that could be either

A text that is both a type and an expression is taken for an expression. That is so for the types
whose head is a name, with or without arguments, and whose suffixes all have sizes. Nothing is
lost: the expression is written as the type is.

* `parseExpr_of_isTypeOnly`, `parseExpr_of_not_isTypeOnly`: what the expression parser makes of a
  type.
* `Insertion.resolveGroup_of_type`: what a group is found to be that the type parser understands.
-/

namespace Splice

section Types

variable {raw : Text} {t : Node}

/-- The expression parser refuses the types that are no expressions. -/
theorem parseExpr_of_isTypeOnly (ht : parseType raw = .ok t) (honly : t.isTypeOnly = true) :
    ∃ failure, parseExpr raw = .error failure := by
  obtain ⟨-, htype⟩ := (@parse_eq_ok_iff_isTree .type _ _).1 ht
  cases he : parseExpr raw with
  | error failure => exact ⟨failure, rfl⟩
  | ok e =>
    obtain ⟨-, hexpr⟩ := (@parse_eq_ok_iff_isTree .expr _ _).1 he
    have hsurface := Phrase.typeSurface htype (haveNames_ofText raw) honly
    exact absurd (Phrase.exprSurface hexpr rfl) hsurface.not_exprSurface

/-- The expression parser understands any other type, and its tree is written as the type is. -/
theorem parseExpr_of_not_isTypeOnly (ht : parseType raw = .ok t) (honly : t.isTypeOnly = false) :
    ∃ e, parseExpr raw = .ok e ∧ e.writeExpr = .ok t.typeText := by
  obtain ⟨hfault, htype⟩ := (@parse_eq_ok_iff_isTree .type _ _).1 ht
  obtain ⟨e, he, -, htext⟩ := Phrase.isSuffixedText htype (haveNames_ofText raw) honly
  have hexpr : parseExpr raw = .ok e :=
    (@parse_eq_ok_iff_isTree .expr _ _).2 ⟨hfault, he.toExpr⟩
  refine ⟨e, hexpr, ?_⟩
  rw [Node.writeExpr, (hasSort_of_parseExpr hexpr).hasText.2, htext]

/-- A group that the type parser understands is a type exactly if its head is reserved or one of
its suffixes has no size. Otherwise it is an expression that is written as the type is. -/
theorem Insertion.resolveGroup_of_type (ht : parseType raw = .ok t) (locate : Option Locate)
    (start stop : Nat) :
    (IsTypeHead t.typeHead ∧ t.typeHead.withSuffixes t.typeSuffixes = t) ∧
      if t.typeHead.isReserved || t.typeSuffixes.any TypeSuffix.isUnsized then
        (∃ failure, parseExpr raw = .error failure) ∧
          resolveGroup .host locate raw start stop =
            pure (.group raw start stop (some .type) (typeNode raw start locate t))
      else
        ∃ e text, parseExpr raw = .ok e ∧
          resolveGroup .host locate raw start stop =
            pure (.group raw start stop (some .expression) (exprNode raw start locate e)) ∧
          (exprNode raw start locate e).writeExpr = .ok text ∧ t.writeType = .ok text := by
  have htype := ((@parse_eq_ok_iff_isTree .type _ _).1 ht).2
  refine ⟨Phrase.type_parts htype (haveNames_ofText raw), ?_⟩
  split
  next honly =>
    obtain ⟨failure, he⟩ := parseExpr_of_isTypeOnly ht honly
    exact ⟨⟨failure, he⟩, resolveGroup_of_parseType locate start stop ht he⟩
  next honly =>
    obtain ⟨e, he, hwrite⟩ := parseExpr_of_not_isTypeOnly ht (Bool.eq_false_iff.2 honly)
    refine ⟨e, t.typeText, he, resolveGroup_of_parseExpr locate start stop he, ?_, ?_⟩
    · cases locate with
      | none => exact hwrite
      | some locate => rw [exprNode, Node.writeExpr_mapLoc, hwrite]
    · rw [Node.writeType, (hasSort_of_parseType ht).hasText]

/-- A name with a point and a size. -/
theorem Insertion.resolveGroup_of_type_sized :
    let raw : Text := (['m', '.', 'T', '[', 'n', ']'] : Text)
    let t := (Node.namedType .start ['m', '.', 'T']).arrayType (.name ⟨1, 5⟩ ['n'])
    parseType raw = .ok t ∧ ∃ e text, parseExpr raw = .ok e ∧
      resolveGroup .host none raw 0 9 =
        pure (.group raw 0 9 (some .expression) (exprNode raw 0 none e)) ∧
      (exprNode raw 0 none e).writeExpr = .ok text ∧ t.writeType = .ok text := by
  intro raw t
  have ht : parseType raw = .ok t := by
    refine (@parse_eq_ok_iff_isTree .type _ _).2 ⟨by decide, ?_⟩
    have htokens : (Lexed.ofText raw).tokens =
        [⟨.name, ['m'], 0, ⟨1, 1⟩⟩, ⟨.mark .dot, ['.'], 1, ⟨1, 2⟩⟩, ⟨.name, ['T'], 2, ⟨1, 3⟩⟩,
          ⟨.mark .lbracket, ['['], 3, ⟨1, 4⟩⟩, ⟨.name, ['n'], 4, ⟨1, 5⟩⟩,
          ⟨.mark .rbracket, [']'], 5, ⟨1, 6⟩⟩] := by decide
    rw [htokens]
    have hsize {token : Token} (h : token.terminal = .name) :
        Phrase .expr [token] (.name token.loc token.text) := Phrase.toExpr (.ofPrimary (.name h))
    exact .array (.named (.dot (.name rfl) rfl rfl)) rfl (hsize rfl) rfl
  exact ⟨ht, (resolveGroup_of_type ht none 0 9).2⟩

end Types

end Splice
