import FrontEnd.Proofs.Progress

/-!
# The grammar of expressions

The grammar is stratified: four levels of left-recursive operator chains over a level of unary
operators, literals, names and groups. It says nothing about how an expression is read; the parser
is compared with it elsewhere.

* `Level` — the levels, and the level that stands above each binding power.
* `Phrase` — a derivation tree. Unlike a syntax tree it keeps the parentheses.
* `Phrase.need` — the levels of nesting that reading the phrase takes.
* `Derives` — the grammar: which tokens form which phrase at which level.

Principal results: `Derives.tokens_eq` and `Derives.tokens_ne_nil` (a phrase consists of the tokens
that derive it), and `Derives.eq_of_tree_eq` (tokens and syntax tree together leave no choice of
phrase, since parentheses match in one way only).
-/

namespace FrontEnd

/-- The levels of the grammar, loosest first. -/
inductive Level where
  | equality
  | relation
  | sum
  | product
  | unary
  deriving DecidableEq, Repr

namespace Level

/-- The operators that chains of the level are made with. -/
def operators : Level → List TokenKind
  | equality => [.equal, .notEqual]
  | relation => [.less, .greater]
  | sum => [.plus, .minus]
  | product => [.star, .slash]
  | unary => []

/-- The level of the operands in a chain. -/
def tighter : Level → Level
  | equality => relation
  | relation => sum
  | sum => product
  | product => unary
  | unary => unary

/-- The level of the expressions that hold only operators above the power. -/
def above : BindingPower → Level
  | .lowest => equality
  | .equals => relation
  | .lessGreater => sum
  | .sum => product
  | .product => unary
  | .unary => unary
  | .call => unary

/-- The power of the level's operators; that of unary operators at the tightest level. -/
def power : Level → BindingPower
  | equality => .equals
  | relation => .lessGreater
  | sum => .sum
  | product => .product
  | unary => .unary

end Level

/-- A derivation tree. -/
inductive Phrase where
  | identifier (name : Token)
  | integer (token : Token) (value : Int64)
  | boolean (token : Token)
  | unary (operator : Token) (operand : Phrase)
  | group (opening : Token) (inner : Phrase) (closing : Token)
  | binary (left : Phrase) (operator : Token) (right : Phrase)

namespace Phrase

/-- The tokens of a phrase, in order. -/
def tokens : Phrase → List Token
  | identifier name => [name]
  | integer token _ => [token]
  | boolean token => [token]
  | unary operator operand => operator :: operand.tokens
  | group opening inner closing => opening :: (inner.tokens ++ [closing])
  | binary left operator right => left.tokens ++ operator :: right.tokens

/-- The syntax tree of a phrase. Parentheses are dropped. -/
def tree : Phrase → Expr
  | identifier name => .identifier (.ofToken name)
  | integer token value => .integer token value token.span
  | boolean token => .boolean token (token.kind = .trueWord) token.span
  | unary operator operand =>
    .unary operator operator.text operand.tree ⟨operator.span.start, operand.tree.span.stop⟩
  | group _ inner _ => inner.tree
  | binary left operator right =>
    .binary operator left.tree operator.text right.tree
      ⟨left.tree.span.start, right.tree.span.stop⟩

/-- The levels of nesting that a phrase takes. An operator takes one more for the operand on its
right, and so does a pair of parentheses for what it holds. -/
def need : Phrase → Nat
  | identifier _ => 1
  | integer _ _ => 1
  | boolean _ => 1
  | unary _ operand => 1 + operand.need
  | group _ inner _ => 1 + inner.need
  | binary left _ right => max left.need (1 + right.need)

theorem tokens_ne_nil (x : Phrase) : x.tokens ≠ [] := by
  cases x <;> simp [tokens]

theorem one_le_need (x : Phrase) : 1 ≤ x.need := by
  induction x with
  | identifier | integer | boolean => exact Nat.le_refl 1
  | unary | group => exact Nat.le_add_right 1 _
  | binary left _ _ ihl _ => exact Nat.le_trans ihl (Nat.le_max_left _ _)

end Phrase

/-- The grammar: `Derives l u x` if the tokens `u` form the phrase `x` of the level `l`. -/
inductive Derives : Level → List Token → Phrase → Prop where
  /-- A name. -/
  | identifier {name : Token} (h : name.kind = .identifier) :
    Derives .unary [name] (.identifier name)
  /-- An integer literal that has a value. -/
  | integer {token : Token} {value : Int64} (h : token.kind = .integer)
    (hv : literalValue? token.text = some value) : Derives .unary [token] (.integer token value)
  /-- A truth value. -/
  | boolean {token : Token} (h : token.kind = .trueWord ∨ token.kind = .falseWord) :
    Derives .unary [token] (.boolean token)
  /-- A unary operator and its operand. -/
  | unary {operator : Token} {u : List Token} {x : Phrase}
    (h : operator.kind = .minus ∨ operator.kind = .bang) (hx : Derives .unary u x) :
    Derives .unary (operator :: u) (.unary operator x)
  /-- Any expression in parentheses. -/
  | group {opening closing : Token} {u : List Token} {x : Phrase}
    (ho : opening.kind = .openParen) (hx : Derives .equality u x)
    (hc : closing.kind = .closeParen) :
    Derives .unary (opening :: (u ++ [closing])) (.group opening x closing)
  /-- A chain that goes on with one operator more. -/
  | chain {l : Level} {u v : List Token} {x y : Phrase} {operator : Token}
    (hx : Derives l u x) (h : operator.kind ∈ l.operators) (hy : Derives l.tighter v y) :
    Derives l (u ++ operator :: v) (.binary x operator y)
  /-- A chain without an operator. -/
  | single {l : Level} {u : List Token} {x : Phrase} (hx : Derives l.tighter u x) : Derives l u x

namespace Derives

variable {l : Level} {u v : List Token} {x y : Phrase}

theorem tokens_eq (h : Derives l u x) : x.tokens = u := by
  induction h with
  | identifier | integer | boolean => rfl
  | unary _ _ ih => rw [Phrase.tokens, ih]
  | group _ _ _ ih => rw [Phrase.tokens, ih]
  | chain _ _ _ ihx ihy => rw [Phrase.tokens, ihx, ihy]
  | single _ ih => exact ih

theorem tokens_ne_nil (h : Derives l u x) : u ≠ [] := by
  rw [← h.tokens_eq]
  exact x.tokens_ne_nil

/-- No token of a phrase is punctuation of the statement around it. -/
theorem kind_ne (h : Derives l u x) :
    ∀ t ∈ u, t.kind ≠ .assign ∧ t.kind ≠ .semicolon ∧ t.kind ≠ .eof := by
  induction h with
  | identifier h | integer h _ => simp [h]
  | boolean h => rcases h with h | h <;> simp [h]
  | unary h _ ih =>
    intro t ht
    rcases List.mem_cons.1 ht with rfl | ht
    · rcases h with h | h <;> simp [h]
    · exact ih t ht
  | group ho _ hc ih =>
    intro t ht
    rcases List.mem_cons.1 ht with rfl | ht
    · simp [ho]
    · rcases List.mem_append.1 ht with ht | ht
      · exact ih t ht
      · obtain rfl := List.mem_singleton.1 ht
        simp [hc]
  | @chain l _ _ _ _ operator _ h _ ihx ihy =>
    intro t ht
    rcases List.mem_append.1 ht with ht | ht
    · exact ihx t ht
    · rcases List.mem_cons.1 ht with rfl | ht
      · revert h
        cases l <;> simp only [Level.operators] <;> cases t.kind <;> decide
      · exact ihy t ht
  | single _ ih => exact ih

end Derives

/-! ## Parentheses match in one way -/

def Token.isOpening (t : Token) : Bool := t.kind = .openParen

def Token.isClosing (t : Token) : Bool := t.kind = .closeParen

def Token.isPlain (t : Token) : Bool := t.kind ≠ .openParen ∧ t.kind ≠ .closeParen

/-- Whether the parentheses of a phrase are those of its groups. -/
def Phrase.Parenthesised : Phrase → Prop
  | .identifier name => name.isPlain
  | .integer token _ => token.isPlain
  | .boolean token => token.isPlain
  | .unary operator operand => operator.isPlain ∧ operand.Parenthesised
  | .group opening inner closing =>
    opening.kind = .openParen ∧ inner.Parenthesised ∧ closing.kind = .closeParen
  | .binary left operator right =>
    left.Parenthesised ∧ operator.isPlain ∧ right.Parenthesised

/-- The number of nodes of a syntax tree. -/
def Expr.size : Expr → Nat
  | .identifier _ => 1
  | .integer _ _ _ => 1
  | .boolean _ _ _ => 1
  | .unary _ _ right _ => 1 + right.size
  | .binary _ left _ right _ => left.size + (1 + right.size)

namespace Token

variable {t : Token}

theorem isPlain_iff : t.isPlain = true ↔ t.isOpening = false ∧ t.isClosing = false := by
  simp [isPlain, isOpening, isClosing]

theorem opening_flags (h : t.kind = .openParen) :
    t.isOpening = true ∧ t.isClosing = false ∧ t.isPlain = false := by
  simp [isOpening, isClosing, isPlain, h]

theorem closing_flags (h : t.kind = .closeParen) :
    t.isOpening = false ∧ t.isClosing = true ∧ t.isPlain = false := by
  simp [isOpening, isClosing, isPlain, h]

end Token

theorem Level.isPlain_of_mem {l : Level} {t : Token} (h : t.kind ∈ l.operators) :
    t.isPlain = true := by
  cases l <;> simp only [Level.operators, List.mem_cons, List.not_mem_nil, or_false] at h <;>
    rcases h with h | h <;> simp [Token.isPlain, h]

theorem Derives.parenthesised {l : Level} {u : List Token} {x : Phrase} (h : Derives l u x) :
    x.Parenthesised := by
  induction h with
  | identifier h => simp [Phrase.Parenthesised, Token.isPlain, h]
  | integer h _ => simp [Phrase.Parenthesised, Token.isPlain, h]
  | boolean h => rcases h with h | h <;> simp [Phrase.Parenthesised, Token.isPlain, h]
  | unary h _ ih => rcases h with h | h <;> simp [Phrase.Parenthesised, Token.isPlain, h, ih]
  | group ho _ hc ih => exact ⟨ho, ih, hc⟩
  | chain _ h _ ihx ihy => exact ⟨ihx, Level.isPlain_of_mem h, ihy⟩
  | single _ ih => exact ih

namespace Phrase.Parenthesised

variable {x y : Phrase}

/-- A phrase opens as many groups as it closes. -/
theorem count_closing (h : x.Parenthesised) :
    x.tokens.countP Token.isClosing = x.tokens.countP Token.isOpening := by
  induction x with
  | identifier t | integer t | boolean t =>
    obtain ⟨ho, hc⟩ := Token.isPlain_iff.1 h
    simp [tokens, ho, hc]
  | unary operator operand ih =>
    obtain ⟨hp, hx⟩ := h
    obtain ⟨ho, hc⟩ := Token.isPlain_iff.1 hp
    simp [tokens, ho, hc, ih hx]
  | group opening inner closing ih =>
    obtain ⟨hk, hx, hk'⟩ := h
    obtain ⟨ho, hc, _⟩ := Token.opening_flags hk
    obtain ⟨ho', hc', _⟩ := Token.closing_flags hk'
    simp [tokens, ho, hc, ho', hc', ih hx]
  | binary left operator right ihl ihr =>
    obtain ⟨hl, hp, hr⟩ := h
    obtain ⟨ho, hc⟩ := Token.isPlain_iff.1 hp
    simp [tokens, ho, hc, ihl hl, ihr hr]

/-- No part at the head of a phrase closes more groups than it opens. -/
theorem count_take (h : x.Parenthesised) (k : Nat) :
    (x.tokens.take k).countP Token.isClosing ≤ (x.tokens.take k).countP Token.isOpening := by
  induction x generalizing k with
  | identifier t | integer t | boolean t =>
    obtain ⟨ho, hc⟩ := Token.isPlain_iff.1 h
    cases k <;> simp [tokens, ho, hc]
  | unary operator operand ih =>
    obtain ⟨hp, hx⟩ := h
    obtain ⟨ho, hc⟩ := Token.isPlain_iff.1 hp
    cases k with
    | zero => simp
    | succ k => simpa [tokens, ho, hc] using ih hx k
  | group opening inner closing ih =>
    obtain ⟨hk, hx, hk'⟩ := h
    obtain ⟨ho, hc, _⟩ := Token.opening_flags hk
    obtain ⟨ho', hc', _⟩ := Token.closing_flags hk'
    cases k with
    | zero => simp
    | succ k =>
      have hin := ih hx k
      simp only [tokens, List.take_succ_cons, List.take_append, List.countP_cons,
        List.countP_append, ho, hc]
      cases k - inner.tokens.length with
      | zero =>
        simp only [List.take_zero, List.countP_nil]
        simp
        omega
      | succ j =>
        simp only [List.take_succ_cons, List.countP_cons, List.take_nil, List.countP_nil, ho', hc']
        simp
        omega
  | binary left operator right ihl ihr =>
    obtain ⟨hl, hp, hr⟩ := h
    obtain ⟨ho, hc⟩ := Token.isPlain_iff.1 hp
    have hleft := ihl hl k
    simp only [tokens, List.take_append, List.countP_append]
    cases k - left.tokens.length with
    | zero => simpa using hleft
    | succ j =>
      have hright := ihr hr j
      simp only [List.take_succ_cons, List.countP_cons, ho, hc]
      simp
      omega

/-- A phrase has a token that is no parenthesis for every node of its tree. -/
theorem count_plain (h : x.Parenthesised) :
    x.tokens.countP Token.isPlain = x.tree.size := by
  induction x with
  | identifier t | integer t | boolean t =>
    simp only [Parenthesised] at h
    simp [tokens, tree, Expr.size, h]
  | unary operator operand ih =>
    obtain ⟨hp, hx⟩ := h
    simp [tokens, tree, Expr.size, hp, ih hx, Nat.add_comm]
  | group opening inner closing ih =>
    obtain ⟨hk, hx, hk'⟩ := h
    simp [tokens, tree, (Token.opening_flags hk).2.2, (Token.closing_flags hk').2.2, ih hx]
  | binary left operator right ihl ihr =>
    obtain ⟨hl, hp, hr⟩ := h
    simp [tokens, tree, Expr.size, hp, ihl hl, ihr hr, Nat.add_comm]

/-- A group is no chain: the parentheses around it would have to close before its end. -/
theorem group_tokens_ne {opening closing operator : Token} {inner left right : Phrase}
    (hinner : inner.Parenthesised) (ho : opening.kind = .openParen) (hleft : left.Parenthesised) :
    opening :: (inner.tokens ++ [closing]) ≠ left.tokens ++ operator :: right.tokens := by
  intro h
  have hcount := hleft.count_closing
  have hlen := congrArg List.length h
  have hright : 1 ≤ right.tokens.length := List.length_pos_iff.2 right.tokens_ne_nil
  obtain ⟨ho', hc', _⟩ := Token.opening_flags ho
  cases hl : left.tokens with
  | nil => exact left.tokens_ne_nil hl
  | cons first w =>
    rw [hl, List.cons_append, List.cons.injEq] at h
    obtain ⟨rfl, h⟩ := h
    simp only [hl, List.length_cons, List.length_append, List.length_nil] at hlen
    -- the rest of the left operand lies within the parentheses
    have hw : w = inner.tokens.take w.length := by
      have htake := congrArg (List.take w.length) h
      rwa [List.take_append_of_le_length (by omega), List.take_left, eq_comm] at htake
    have hle := hinner.count_take w.length
    rw [← hw] at hle
    simp only [hl, List.countP_cons, ho', hc'] at hcount
    simp at hcount
    omega

/-- Two ways to split a list at `m` are one if equally many elements before `m` are like `m`. -/
theorem length_eq_of_countP {p : Token → Bool} {a b c d : List Token} {m : Token}
    (h : a ++ m :: b = c ++ m :: d) (hm : p m = true) (hcount : a.countP p = c.countP p) :
    a.length = c.length := by
  rcases List.append_eq_append_iff.1 h with ⟨w, rfl, hw⟩ | ⟨w, rfl, hw⟩ <;>
  · cases w with
    | nil => simp
    | cons m' w =>
      obtain ⟨rfl, _⟩ := List.cons.inj hw
      simp [hm] at hcount

/-- Tokens and syntax tree together determine a phrase. -/
theorem eq_of_tree_eq (hx : x.Parenthesised) (hy : y.Parenthesised)
    (htokens : x.tokens = y.tokens) (htree : x.tree = y.tree) : x = y := by
  induction x generalizing y with
  | identifier t =>
    cases y <;> simp_all [tokens, tree]
  | integer t value =>
    cases y <;> simp_all [tokens, tree]
  | boolean t =>
    cases y <;> simp_all [tokens, tree]
  | unary operator operand ih =>
    cases y with
    | unary operator' operand' =>
      simp only [tokens, List.cons.injEq] at htokens
      simp only [tree, Expr.unary.injEq] at htree
      rw [htokens.1, ih hx.2 hy.2 htokens.2 htree.2.2.1]
    | group opening inner closing =>
      simp only [tokens, List.cons.injEq] at htokens
      have hplain := hx.1
      rw [htokens.1, (Token.opening_flags hy.1).2.2] at hplain
      cases hplain
    | identifier | integer | boolean | binary => cases htree
  | group opening inner closing ih =>
    cases y with
    | group opening' inner' closing' =>
      simp only [tokens, List.cons.injEq] at htokens
      obtain ⟨rfl, htokens⟩ := htokens
      obtain ⟨hinner, hclosing⟩ := List.append_inj' htokens rfl
      rw [(List.cons.inj hclosing).1, ih hx.2.1 hy.2.1 hinner htree]
    | identifier | integer | boolean =>
      simp [tokens] at htokens
    | unary operator operand =>
      simp only [tokens, List.cons.injEq] at htokens
      have hplain := hy.1
      rw [← htokens.1, (Token.opening_flags hx.1).2.2] at hplain
      cases hplain
    | binary left operator right =>
      exact absurd htokens (group_tokens_ne hx.2.1 hx.1 hy.1)
  | binary left operator right ihl ihr =>
    cases y with
    | binary left' operator' right' =>
      simp only [tree, Expr.binary.injEq] at htree
      obtain ⟨rfl, hltree, _, hrtree, _⟩ := htree
      -- the left operands have equally many tokens, for they have equally many plain ones
      have hlen : left.tokens.length = left'.tokens.length := by
        apply length_eq_of_countP htokens hx.2.1
        rw [hx.1.count_plain, hy.1.count_plain, hltree]
      simp only [tokens] at htokens
      obtain ⟨hl, hr⟩ := List.append_inj htokens hlen
      rw [ihl hx.1 hy.1 hl hltree, ihr hx.2.2 hy.2.2 (List.cons.inj hr).2 hrtree]
    | group opening inner closing =>
      exact absurd htokens.symm (group_tokens_ne hy.2.1 hy.1 hx.1)
    | identifier | integer | boolean | unary => cases htree

end Phrase.Parenthesised

/-- Tokens that form phrases of one syntax tree form one phrase. -/
theorem Derives.eq_of_tree_eq {l l' : Level} {u : List Token} {x y : Phrase} (hx : Derives l u x)
    (hy : Derives l' u y) (htree : x.tree = y.tree) : x = y :=
  hx.parenthesised.eq_of_tree_eq hy.parenthesised (hx.tokens_eq.trans hy.tokens_eq.symm) htree

end FrontEnd
