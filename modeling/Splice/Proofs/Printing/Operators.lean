import Splice.Proofs.Grammar.Reading
import Splice.Proofs.Syntax.Nodes
import Splice.Syntax.Printer

/-!
# Operators and parentheses

Each binding strength is a level of the grammar. What is written at some strength is read at its
level and, without parentheses, at all weaker ones; in parentheses it is read at every level.

* `Node.bare`: a tree without its places.
* `Nonterminal.Reads`: a text is read as a nonterminal, and the node is the given one up to places.
* `Nonterminal.reads_enclosed`: an operand is read where it stands.
* `Nonterminal.reads_unary`, `Nonterminal.reads_binary`: so is what an operator makes of it.
-/

namespace Splice

/-- The tree without its places. -/
def Node.bare (n : Node) : Node := n.mapLoc fun _ => .start

theorem Node.bare_mapLoc (f : Loc → Loc) (n : Node) : (n.mapLoc f).bare = n.bare :=
  n.mapLoc_mapLoc _ f

/-- The value is a tree that is equal to another one up to its places. -/
def Decoded.Gives (v : Decoded Node) (e : Node) : Prop := ∃ e', v = .ok e' ∧ e'.bare = e.bare

namespace Decoded

variable {e l r n : Node} {v w : Decoded Node}

theorem Gives.pure (h : n.bare = e.bare) : Gives (.ok n) e := ⟨n, rfl, h⟩

theorem Gives.bind {f : Node → Decoded Node} (hv : v.Gives e)
    (hf : ∀ n, n.bare = e.bare → (f n).Gives r) : Gives (v >>= f) r := by
  obtain ⟨n, rfl, hn⟩ := hv
  exact hf n hn

theorem Gives.binary {start loc : Loc} {op : BinaryOp} (hv : v.Gives l) (hw : w.Gives r) :
    Gives (Production.binary start op v w) (.binary loc op l r) :=
  hv.bind fun _ hl => hw.bind fun _ hr => .pure (congrArg₂ (Node.binary .start op) hl hr)

end Decoded

/-- A text does not begin with a blank, nor with what would make an operator before it longer. -/
def Starts (t : Text) : Prop :=
  ∃ c rest, t = c :: rest ∧ Lexeme.isSpace c = false ∧ c ≠ '=' ∧ c ≠ '/' ∧ c ≠ '*'

theorem Starts.append {t : Text} (h : Starts t) (s : Text) : Starts (t ++ s) := by
  obtain ⟨c, rest, rfl, hc⟩ := h
  exact ⟨c, rest ++ s, rfl, hc⟩

theorem Starts.isSpace {t : Text} (h : Starts t) :
    ∀ c ∈ t.head?, Lexeme.isSpace c = false := by
  obtain ⟨c, rest, rfl, hc, -⟩ := h
  rintro _ ⟨⟩
  exact hc

namespace Nonterminal

/-- The value of a nonterminal of expressions or types is a tree up to its places. -/
def Gives : (n : Nonterminal) → Decoded n.Value → Node → Prop
  | expr, v, e | disjunction, v, e | conjunction, v, e | comparison, v, e | sum, v, e
  | term, v, e | unary, v, e | suffixed, v, e | primary, v, e | templateArg, v, e
  | typeOnly, v, e | type, v, e | typeBase, v, e | builtinType, v, e | qualifiedType, v, e =>
    Decoded.Gives v e
  | _, _, _ => False

/-- A text, with another one behind it, is read as a nonterminal, and gives a tree up to its
places. -/
def Reads (n : Nonterminal) (e : Node) (t s : Text) : Prop := n.ReadsWith Gives e t s

/-- The level of the grammar for a binding strength. -/
def ofStrength : Nat → Nonterminal
  | 0 | 1 => disjunction
  | 2 => conjunction
  | 3 => comparison
  | 4 => sum
  | 5 => term
  | 6 => unary
  | _ => suffixed

variable {e l r : Node} {t t' s : Text}

theorem Reads.toExpr (h : disjunction.Reads e t s) : expr.Reads e t s :=
  reads_node (Production.mem_operators (k := 0) rfl) h fun _ _ hv => hv

/-- What is read at a level is read at the next weaker one. -/
theorem Reads.weaken : ∀ {strength : Nat}, (ofStrength (strength + 1)).Reads e t s →
    (ofStrength strength).Reads e t s
  | 0, h => h
  | 1, h => reads_node (Production.mem_operators (k := 1) rfl) h fun _ _ hv => hv
  | 2, h => reads_node (Production.mem_operators (k := 3) rfl) h fun _ _ hv => hv
  | 3, h => reads_node (Production.mem_operators (k := 5) rfl) h fun _ _ hv => hv
  | 4, h => reads_node (Production.mem_operators (k := 12) rfl) h fun _ _ hv => hv
  | 5, h => reads_node (Production.mem_operators (k := 16) rfl) h fun _ _ hv => hv
  | 6, h => reads_node (Production.mem_operators (k := 20) rfl) h fun _ _ hv => hv
  | _ + 7, h => h

theorem Reads.mono {strength weaker : Nat} (hle : weaker ≤ strength)
    (h : (ofStrength strength).Reads e t s) : (ofStrength weaker).Reads e t s := by
  induction hle with
  | refl => exact h
  | step _ ih => exact ih h.weaken

/-! ## Parentheses -/

theorem Reads.toSuffixed (h : primary.Reads e t s) : suffixed.Reads e t s :=
  reads_node (Production.mem_operands (k := 0) rfl) h fun _ _ hv => hv

/-- A mark that nothing makes longer. -/
theorem reads_mark {m : Mark} (hm : Lexeme.mayGrow m = false) (s : Text) :
    Splice.Reads [.mark m] m.text s fun _ => True :=
  .imp (fun _ _ => trivial) (.token (Lexeme.first?_mark (by rw [hm]; nofun)))

theorem reads_parentheses (h : expr.Reads e t (')' :: s)) :
    suffixed.Reads e (↑ '(' :: t ++ ([')'] : Text)) s := by
  have hopen := reads_mark (m := .lparen) rfl (t ++ ([')'] : Text) ++ s)
  have hrow := ((reads_mark (m := .rparen) rfl s).prepend h).prepend hopen
  refine Reads.toSuffixed ?_
  exact reads_node (Production.mem_operands (k := 19) rfl) hrow fun _ _ hv => hv.2.1

/-- An operand is read at the level at which it stands. -/
theorem reads_enclosed {strength minimum : Nat} (hminimum : minimum ≤ postfixStrength)
    (h : ∀ s, Ends s → (ofStrength strength).Reads e t s) (hs : Ends s) :
    (ofStrength minimum).Reads e (enclosed strength minimum t) s := by
  unfold enclosed
  split
  next =>
    have hexpr := ((h (')' :: s) (.of_mem (by decide) s)).mono (Nat.zero_le _)).toExpr
    have hlevel : (ofStrength 7).Reads e (↑ '(' :: t ++ ([')'] : Text)) s := reads_parentheses hexpr
    exact hlevel.mono hminimum
  next hle => exact (h s hs).mono (Nat.le_of_not_lt hle)

/-! ## Operators -/

theorem reads_unary {mark : Mark} {op : UnaryOp} (hop : (mark, op) ∈ UnaryOp.marks) {loc : Loc}
    (h : unary.Reads e t s) (hstarts : Starts t) :
    unary.Reads (.unary loc op e) (op.text ++ t) s := by
  have hmark : Splice.Reads [.mark mark] mark.text (t ++ s) fun _ => True := by
    obtain ⟨c, rest, rfl, -, hc⟩ := hstarts
    refine .imp (fun _ _ => trivial) (.token (Lexeme.first?_mark fun _ => ?_))
    rintro _ ⟨⟩
    exact hc
  have hrow := Splice.Reads.prepend h hmark
  rw [UnaryOp.text_marks _ hop]
  refine reads_node (Production.mem_unaries hop) hrow fun start inner hv => ?_
  refine Decoded.Gives.bind hv.2 fun n hn => ?_
  exact .pure (congrArg (Node.unary .start op) hn)

/-- Two operands with an operator between them, and blanks around it. -/
theorem reads_operands {a b : Nonterminal} {mark : Mark}
    (hl : a.Reads l t (' ' :: (mark.text ++ ↑ ' ' :: (t' ++ s)))) (hr : b.Reads r t' s)
    (hstarts : Starts t') :
    Splice.Reads [.nonterminal a, .mark mark, .nonterminal b]
      (t ++ ↑ ' ' :: (mark.text ++ ↑ ' ' :: t')) s fun v => a.Gives v.1 l ∧ b.Gives v.2.2.1 r := by
  have hright := Splice.Reads.blank hr (hstarts.append s).isSpace
  have hmark : Splice.Reads [.mark mark] mark.text (↑ ' ' :: t' ++ s) fun _ => True := by
    refine .imp (fun _ _ => trivial) (.token (Lexeme.first?_mark fun _ => ?_))
    rintro _ ⟨⟩
    decide
  have hback := (hright.prepend hmark).blank (by
    have hall : ∀ m ∈ Mark.all, m.text.head?.any (fun c => !Lexeme.isSpace c) = true := by
      decide
    obtain ⟨c, hc, hspace⟩ := (Option.any_eq_true _ _).1 (hall mark (Lexeme.mem_marks mark))
    obtain ⟨rest, hrest⟩ := List.head?_eq_some_iff.1 hc
    rw [hrest]
    rintro _ ⟨⟩
    simpa using hspace)
  have hl : a.Reads l t (↑ ' ' :: (mark.text ++ ↑ ' ' :: t') ++ s) := by
    simpa using hl
  exact (hback.prepend hl).imp fun v hv => ⟨hv.1, hv.2.2⟩

/-- What an operator makes of two operands is read at its level. -/
theorem reads_binary {mark : Mark} {op : BinaryOp} (hop : (mark, op) ∈ BinaryOp.marks) {loc : Loc}
    (hl : (ofStrength op.leftMinimum).Reads l t (' ' :: (op.text ++ ↑ ' ' :: (t' ++ s))))
    (hr : (ofStrength op.rightMinimum).Reads r t' s) (hstarts : Starts t') :
    (ofStrength op.strength).Reads (.binary loc op l r)
      (t ++ ↑ ' ' :: op.text ++ ↑ ' ' :: t') s := by
  have htext : t ++ ↑ ' ' :: op.text ++ ↑ ' ' :: t' = t ++ ↑ ' ' :: (mark.text ++ ↑ ' ' :: t') := by
    rw [BinaryOp.text_marks _ hop]
    simp
  rw [BinaryOp.text_marks _ hop] at hl
  rw [htext]
  have hrow := reads_operands hl hr hstarts
  simp only [BinaryOp.marks, List.mem_append, or_assoc] at hop
  rcases hop with hop | hop | hop | hop
  · simp only [List.mem_cons, Prod.mk.injEq, List.not_mem_nil, or_false] at hop
    rcases hop with ⟨rfl, rfl⟩ | ⟨rfl, rfl⟩
    · exact reads_node (Production.mem_operators (k := 2) rfl) hrow fun _ _ hv => hv.1.binary hv.2
    · exact reads_node (Production.mem_operators (k := 4) rfl) hrow fun _ _ hv => hv.1.binary hv.2
  · have hlevels : ∀ p ∈ BinaryOp.comparisons,
        p.2.strength = 3 ∧ p.2.leftMinimum = 4 ∧ p.2.rightMinimum = 4 := by decide
    obtain ⟨hstrength, hleft, hright⟩ := hlevels _ hop
    rw [hleft, hright] at hrow
    rw [hstrength]
    exact reads_node (Production.mem_comparisons hop) hrow fun _ _ hv => hv.1.binary hv.2
  · have hlevels : ∀ p ∈ BinaryOp.sums,
        p.2.strength = 4 ∧ p.2.leftMinimum = 4 ∧ p.2.rightMinimum = 5 := by decide
    obtain ⟨hstrength, hleft, hright⟩ := hlevels _ hop
    rw [hleft, hright] at hrow
    rw [hstrength]
    exact reads_node (Production.mem_sums hop) hrow fun _ _ hv => hv.1.binary hv.2
  · have hlevels : ∀ p ∈ BinaryOp.products,
        p.2.strength = 5 ∧ p.2.leftMinimum = 5 ∧ p.2.rightMinimum = 6 := by decide
    obtain ⟨hstrength, hleft, hright⟩ := hlevels _ hop
    rw [hleft, hright] at hrow
    rw [hstrength]
    exact reads_node (Production.mem_products hop) hrow fun _ _ hv => hv.1.binary hv.2

end Nonterminal

end Splice
