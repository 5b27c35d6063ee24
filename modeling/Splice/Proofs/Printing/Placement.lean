import Splice.Proofs.Syntax.Nodes
import Splice.Syntax.Printer

/-!
# Printing does not depend on places

* `Node.writeExpr_mapLoc`: an expression is written in the same way wherever its nodes stand.
-/

namespace Splice

theorem Interpolation.text_mapLoc (f : Loc → Loc) (i : Interpolation) :
    (i.mapLoc f).text = i.text := by
  rw [text, text, mapLoc, PlacedText.text_map]

@[simp] theorem Node.strength_mapLoc (f : Loc → Loc) (n : Node) :
    (n.mapLoc f).strength = n.strength := by
  cases n <;> rfl

/-! ## Source forms -/

mutual

theorem Node.text_mapLoc (f : Loc → Loc) : ∀ n : Node, (n.mapLoc f).text = n.text
  | .missing | .name .. | .literal .. | .type .. | .declare .. | .giveBack .. | .evaluate ..
  | .block .. | .function .. | .param .. | .program .. => rfl
  | .unary _ _ operand => by simp [mapLoc, text, operand.text_mapLoc f]
  | .binary _ _ left right => by
    simp [mapLoc, text, left.text_mapLoc f, right.text_mapLoc f]
  | .call _ callee args | .instantiate _ callee args => by
    simp [mapLoc, text, callee.text_mapLoc f, Node.texts_mapLocs f args]
  | .member _ value _ => by simp [mapLoc, text, value.text_mapLoc f]
  | .index _ value offset => by
    simp [mapLoc, text, value.text_mapLoc f, offset.text_mapLoc f]
  | .mixin _ args => by simp [mapLoc, text, Node.texts_mapLocs f args]
  | .typeArg _ t => by simp [mapLoc, text, t.typeText_mapLoc f]
  | .interpolation i => by simp [mapLoc, text, i.text_mapLoc f]

theorem Node.texts_mapLocs (f : Loc → Loc) : ∀ ns : List Node, texts (mapLocs f ns) = texts ns
  | [] => rfl
  | n :: rest => by simp [mapLocs, texts, n.text_mapLoc f, Node.texts_mapLocs f rest]

theorem Node.typeText_mapLoc (f : Loc → Loc) : ∀ n : Node, (n.mapLoc f).typeText = n.typeText
  | .type _ _ _ args size => by
    simp [mapLoc, typeText, size.text_mapLoc f, Node.innerText_mapLocs f args,
      Node.typeArgTexts_mapLocs f args]
  | .missing | .name .. | .literal .. | .unary .. | .binary .. | .call .. | .instantiate ..
  | .member .. | .index .. | .mixin .. | .typeArg .. | .interpolation _ | .declare ..
  | .giveBack .. | .evaluate .. | .block .. | .function .. | .param .. | .program .. => rfl

theorem Node.innerText_mapLocs (f : Loc → Loc) :
    ∀ ns : List Node, innerText (mapLocs f ns) = innerText ns
  | [] => rfl
  | n :: _ => by simp [mapLocs, innerText, n.typeText_mapLoc f]

theorem Node.typeArgTexts_mapLocs (f : Loc → Loc) :
    ∀ ns : List Node, typeArgTexts (mapLocs f ns) = typeArgTexts ns
  | [] => rfl
  | n :: rest => by
    simp [mapLocs, typeArgTexts, n.text_mapLoc f, n.typeText_mapLoc f,
      Node.typeArgTexts_mapLocs f rest]

end

/-! ## Faults -/

mutual

theorem Node.fault?_mapLoc (f : Loc → Loc) : ∀ n : Node, (n.mapLoc f).fault? = n.fault?
  | .missing | .name .. | .literal .. | .type .. | .declare .. | .giveBack .. | .evaluate ..
  | .block .. | .function .. | .param .. | .program .. | .interpolation _ => rfl
  | .unary _ _ operand => by simp [mapLoc, fault?, operand.fault?_mapLoc f]
  | .binary _ _ left right => by
    simp [mapLoc, fault?, left.fault?_mapLoc f, right.fault?_mapLoc f]
  | .call _ callee args | .instantiate _ callee args => by
    simp [mapLoc, fault?, callee.fault?_mapLoc f, Node.faults?_mapLocs f args]
  | .member _ value _ => by simp [mapLoc, fault?, value.fault?_mapLoc f]
  | .index _ value offset => by
    simp [mapLoc, fault?, value.fault?_mapLoc f, offset.fault?_mapLoc f]
  | .mixin _ args => by simp [mapLoc, fault?, Node.faults?_mapLocs f args]
  | .typeArg _ t => by simp [mapLoc, fault?, t.typeFault?_mapLoc f]

theorem Node.faults?_mapLocs (f : Loc → Loc) : ∀ ns : List Node, faults? (mapLocs f ns) = faults? ns
  | [] => rfl
  | n :: rest => by simp [mapLocs, faults?, n.fault?_mapLoc f, Node.faults?_mapLocs f rest]

theorem Node.typeFault?_mapLoc (f : Loc → Loc) : ∀ n : Node, (n.mapLoc f).typeFault? = n.typeFault?
  | .type _ _ _ args size => by
    simp [mapLoc, typeFault?, size.fault?_mapLoc f, Node.innerFault?_mapLocs f args,
      Node.typeArgFaults?_mapLocs f args]
  | .missing | .name .. | .literal .. | .unary .. | .binary .. | .call .. | .instantiate ..
  | .member .. | .index .. | .mixin .. | .typeArg .. | .interpolation _ | .declare ..
  | .giveBack .. | .evaluate .. | .block .. | .function .. | .param .. | .program .. => rfl

theorem Node.innerFault?_mapLocs (f : Loc → Loc) :
    ∀ ns : List Node, innerFault? (mapLocs f ns) = innerFault? ns
  | [] => rfl
  | n :: _ => by simp [mapLocs, innerFault?, n.typeFault?_mapLoc f]

theorem Node.typeArgFaults?_mapLocs (f : Loc → Loc) :
    ∀ ns : List Node, typeArgFaults? (mapLocs f ns) = typeArgFaults? ns
  | [] => rfl
  | n :: rest => by
    simp [mapLocs, typeArgFaults?, n.fault?_mapLoc f, n.typeFault?_mapLoc f,
      Node.typeArgFaults?_mapLocs f rest]

end

namespace Node

variable (f : Loc → Loc) (n : Node)

/-- An expression is written in the same way wherever it stands. -/
theorem writeExpr_mapLoc : (n.mapLoc f).writeExpr = n.writeExpr := by
  rw [writeExpr, writeExpr, n.fault?_mapLoc f, n.text_mapLoc f]

end Node

end Splice
