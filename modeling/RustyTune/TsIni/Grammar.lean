import RustyTune.TsIni.ExprParse

/-!
# The grammar of expressions

Thirteen levels: the conditional, ten of binary operators, prefixes, and primaries.

* `operatorsAt`: the binary operators of a level; `Derives`: the tokens of a level and their tree.
* `Sound`: whatever the parser reads is derived, and it stops where the level does.
* `Reads`: it reads what is derived, and goes on behind it.
* **`parse_grammar`**: the parser accepts the token lists of the grammar, and no others; each has one
  tree, which it returns.
-/

namespace RustyTune.TsIni

/-- The binary operators of a level, from the loosest on. -/
def operatorsAt : ℕ → List (String × BinOp)
  | 1 => [("||", .or)]
  | 2 => [("&&", .and)]
  | 3 => [("|", .bitOr)]
  | 4 => [("^", .bitXor)]
  | 5 => [("&", .bitAnd)]
  | 6 => [("==", .eq), ("!=", .ne)]
  | 7 => [("<", .lt), (">", .gt), ("<=", .le), (">=", .ge)]
  | 8 => [("<<", .shl), (">>", .shr)]
  | 9 => [("+", .add), ("-", .sub)]
  | 10 => [("*", .mul), ("/", .div), ("%", .rem)]
  | _ => []

theorem lbp_eq_some {s : String} {level : ℕ} {op : BinOp} :
    lbp s = some (level, op) ↔ (s, op) ∈ operatorsAt level := by
  constructor
  · intro h
    unfold lbp at h
    split at h <;> cases h <;> decide
  · intro h
    have hall : ∀ n < 11, ∀ p ∈ operatorsAt n, lbp p.1 = some (n, p.2) := by decide
    by_cases hlevel : level < 11
    · exact hall level hlevel (s, op) h
    · obtain ⟨n, rfl⟩ := Nat.exists_eq_add_of_le (Nat.le_of_not_lt hlevel)
      rw [Nat.add_comm] at h
      exact absurd h List.not_mem_nil

theorem operatorsAt_pos {level : ℕ} {p : String × BinOp} (h : p ∈ operatorsAt level) :
    1 ≤ level ∧ level ≤ 10 := by
  constructor
  · by_contra hlevel
    obtain rfl : level = 0 := by omega
    exact absurd h List.not_mem_nil
  · by_contra hlevel
    obtain ⟨n, rfl⟩ := Nat.exists_eq_add_of_le (show 11 ≤ level by omega)
    rw [Nat.add_comm] at h
    exact absurd h List.not_mem_nil

variable {F : Type}

/-- The tokens of level `level` and their tree: 0 is the conditional, 1 to 10 are the binary
operators, 11 the prefixes, 12 the primaries. -/
inductive Derives : ℕ → List (Tok F) → Expr F → Prop
  | ternary {c t f : List (Tok F)} {ec et ef : Expr F} : Derives 1 c ec → Derives 0 t et →
    Derives 0 f ef → Derives 0 (c ++ .op "?" :: (t ++ .op ":" :: f)) (.ternary ec et ef)
  | binary {level : ℕ} {s : String} {op : BinOp} {l r : List (Tok F)} {el er : Expr F} :
    (s, op) ∈ operatorsAt level → Derives level l el → Derives (level + 1) r er →
    Derives level (l ++ .op s :: r) (.binary op el er)
  | tighter {level : ℕ} {ts : List (Tok F)} {e : Expr F} : Derives (level + 1) ts e →
    Derives level ts e
  | neg {ts : List (Tok F)} {e : Expr F} : Derives 11 ts e →
    Derives 11 (.op "-" :: ts) (.unary .neg e)
  | not {ts : List (Tok F)} {e : Expr F} : Derives 11 ts e →
    Derives 11 (.op "!" :: ts) (.unary .not e)
  | num (n : F) : Derives 12 [.num n] (.num n)
  | str (s : String) : Derives 12 [.str s] (.str s)
  | ident (name : String) : Derives 12 [.ident name] (.ident name)
  | index (name : String) {ts : List (Tok F)} {e : Expr F} : Derives 0 ts e →
    Derives 12 (.ident name :: .op "[" :: (ts ++ [.op "]"])) (.index name e)
  | call (name : String) (args : List (List (Tok F) × Expr F)) :
    (∀ arg ∈ args, Derives 0 arg.1 arg.2) →
    Derives 12
      (.ident name :: .op "(" :: (List.intercalate [.op ","] (args.map Prod.fst) ++ [.op ")"]))
      (.call name (args.map Prod.snd))
  | paren {ts : List (Tok F)} {e : Expr F} : Derives 0 ts e →
    Derives 12 (.op "(" :: (ts ++ [.op ")"])) e

theorem Derives.loosen {level m : ℕ} {ts : List (Tok F)} {e : Expr F} (h : Derives level ts e)
    (hm : m ≤ level) : Derives m ts e := by
  induction hm using Nat.decreasingInduction with
  | self => exact h
  | of_succ k _ ih => exact .tighter ih

/-! ## Where a level ends -/

/-- The tokens do not go on with an operator of level `m` or a tighter one. -/
def Stops (m : ℕ) : List (Tok F) → Prop
  | .op s :: _ => (∀ n op, lbp s = some (n, op) → n < m) ∧ (s = "?" → 0 < m)
  | _ => True

/-- What may follow an operand of a level: no tighter operator, and no `?` after a conditional. -/
def Allows (level : ℕ) : List (Tok F) → Prop
  | .op s :: _ => (∀ n op, lbp s = some (n, op) → n ≤ level) ∧ (s = "?" → 1 ≤ level)
  | _ => True

theorem Stops.allows {level : ℕ} {toks : List (Tok F)} (h : Stops (level + 1) toks)
    (hlevel : 1 ≤ level) : Allows level toks := by
  cases toks with
  | nil => trivial
  | cons t rest =>
    cases t with
    | op s => exact ⟨fun n op hn => Nat.le_of_lt_succ (h.1 n op hn), fun _ => hlevel⟩
    | num | str | ident => trivial

theorem Stops.allows_zero {toks : List (Tok F)} (h : Stops 0 toks) : Allows 0 toks := by
  cases toks with
  | nil => trivial
  | cons t rest =>
    cases t with
    | op s =>
      exact ⟨fun n op hn => absurd (h.1 n op hn) (Nat.not_lt_zero n),
        fun hs => absurd (h.2 hs) (Nat.lt_irrefl 0)⟩
    | num | str | ident => trivial

/-- What an operand of a looser level allows, stops a tighter one. -/
theorem Allows.stops {level m : ℕ} {toks : List (Tok F)} (h : Allows level toks) (hm : level < m) :
    Stops m toks := by
  cases toks with
  | nil => trivial
  | cons t rest =>
    cases t with
    | op s => exact ⟨fun n op hn => Nat.lt_of_le_of_lt (h.1 n op hn) hm, fun _ => by omega⟩
    | num | str | ident => trivial

theorem Allows.stops_zero {toks : List (Tok F)} (h : Allows 0 toks) : Stops 0 toks := by
  cases toks with
  | nil => trivial
  | cons t rest =>
    cases t with
    | op s =>
      refine ⟨fun n op hn => ?_, fun hs => absurd (h.2 hs) (by omega)⟩
      have := operatorsAt_pos (lbp_eq_some.mp hn)
      have := h.1 n op hn
      omega
    | num | str | ident => trivial

theorem Allows.tighter {level : ℕ} {toks : List (Tok F)} (h : Allows level toks) :
    Allows (level + 1) toks := by
  cases toks with
  | nil => trivial
  | cons t rest =>
    cases t with
    | op s => exact ⟨fun n op hn => Nat.le_succ_of_le (h.1 n op hn), fun _ => by omega⟩
    | num | str | ident => trivial

section Parser

variable {num : ℕ} {text : String} {fuel m : ℕ} {lhs : Expr F} {toks : List (Tok F)}

theorem operators_question : operators num text (fuel + 1) m lhs (.op "?" :: toks) =
    (if 0 < m then return (lhs, .op "?" :: toks)
    else do
      let (then_, toks) ← expression num text fuel 0 toks
      let toks ← expectOp num text ":" toks
      let (alt, toks) ← expression num text fuel 0 toks
      operators num text fuel m (.ternary lhs then_ alt) toks) := by
  rw [operators]

theorem operators_binary {s : String} {n : ℕ} {op : BinOp} (hs : lbp s = some (n, op))
    (hm : m ≤ n) : operators num text (fuel + 1) m lhs (.op s :: toks) = (do
      let (rhs, toks) ← expression num text fuel (n + 1) toks
      operators num text fuel m (.binary op lhs rhs) toks) := by
  have hquestion : s ≠ "?" := by
    rintro rfl
    exact nomatch hs
  rw [operators]
  · simp only [hs]
    rw [if_neg (Nat.not_lt.mpr hm)]
  · intro h
    exact hquestion h

theorem operators_stops (h : Stops m toks) :
    operators num text (fuel + 1) m lhs toks = return (lhs, toks) := by
  unfold operators
  split
  · next heq => exact nomatch heq
  · next rest heq =>
    rw [if_pos (h.2 rfl)]
  · next s rest hne heq =>
    split
    · rfl
    · next n op hs => rw [if_pos (h.1 n op hs)]
  · rfl

/-! ## What is derived is read -/

/-- What follows a name is neither an index nor arguments. -/
def Plain : List (Tok F) → Prop
  | .op s :: _ => s ≠ "[" ∧ s ≠ "("
  | _ => True

variable (num text) in
/-- The parser reads the tokens as an operand, and goes on with the operators behind it. -/
def Reads (level : ℕ) (ts : List (Tok F)) (e : Expr F) : Prop :=
  ∀ m ≤ level, ∀ rest, Allows level rest → Plain rest → ∀ fuel, 2 * (ts ++ rest).length + 2 ≤ fuel →
    ∃ fuel', 2 * rest.length + 1 ≤ fuel' ∧
      expression num text fuel m (ts ++ rest) = operators num text fuel' m e rest

variable (num text) in
/-- The parser reads the tokens as a prefix or primary. -/
def ReadsOperand (ts : List (Tok F)) (e : Expr F) : Prop :=
  ∀ rest, Plain rest → ∀ fuel, 2 * (ts ++ rest).length + 1 ≤ fuel →
    primary num text fuel (ts ++ rest) = return (e, rest)

variable {level : ℕ} {ts : List (Tok F)} {e : Expr F}

theorem ReadsOperand.reads (h : ReadsOperand num text ts e) : Reads num text level ts e := by
  intro m _ rest _ hplain fuel hfuel
  obtain ⟨fuel, rfl⟩ := Nat.exists_eq_add_of_le' (show 1 ≤ fuel by omega)
  refine ⟨fuel, ?_, ?_⟩
  · rw [List.length_append] at hfuel
    omega
  · rw [expression, h rest hplain fuel (by omega), pure_bind]

theorem Reads.ends (h : Reads num text level ts e) (hm : m ≤ level) {rest : List (Tok F)}
    (hallows : Allows level rest) (hplain : Plain rest) (hstops : Stops m rest)
    (hfuel : 2 * (ts ++ rest).length + 2 ≤ fuel) :
    expression num text fuel m (ts ++ rest) = return (e, rest) := by
  obtain ⟨fuel', hfuel', heq⟩ := h m hm rest hallows hplain fuel hfuel
  obtain ⟨fuel', rfl⟩ := Nat.exists_eq_add_of_le' (show 1 ≤ fuel' by omega)
  rw [heq, operators_stops hstops]

theorem closing {s : String} (hs : s ∈ [":", "]", ")", ","]) (rest : List (Tok F)) :
    Stops 0 (.op s :: rest) ∧ Plain (.op s :: rest) := by
  simp only [List.mem_cons, List.not_mem_nil, or_false] at hs
  have hlbp : lbp s = none := by rcases hs with rfl | rfl | rfl | rfl <;> rfl
  refine ⟨⟨fun n op hn => ?_, ?_⟩, ?_⟩
  · rw [hlbp] at hn
    exact nomatch hn
  · rcases hs with rfl | rfl | rfl | rfl <;> decide
  · rcases hs with rfl | rfl | rfl | rfl <;> exact ⟨by decide, by decide⟩

theorem Reads.closed (h : Reads num text 0 ts e) {s : String} (hs : s ∈ [":", "]", ")", ","])
    {rest : List (Tok F)} (hfuel : 2 * (ts ++ .op s :: rest).length + 2 ≤ fuel) :
    expression num text fuel 0 (ts ++ .op s :: rest) = return (e, .op s :: rest) := by
  obtain ⟨hstops, hplain⟩ := closing hs rest
  exact h.ends (Nat.le_refl 0) hstops.allows_zero hplain hstops hfuel

theorem expectOp_self (s : String) : expectOp num text s (.op s :: toks) = return toks := by
  rw [expectOp, if_pos rfl]

theorem Reads.binary {s : String} {op : BinOp} {l r : List (Tok F)} {el er : Expr F}
    (hs : (s, op) ∈ operatorsAt level) (hl : Reads num text level l el)
    (hr : Reads num text (level + 1) r er) :
    Reads num text level (l ++ .op s :: r) (.binary op el er) := by
  intro m hm rest hallows hplain fuel hfuel
  have hlbp := lbp_eq_some.mpr hs
  have hnext : Allows level (.op s :: (r ++ rest)) := by
    refine ⟨fun n op' hn => ?_, fun _ => (operatorsAt_pos hs).1⟩
    rw [hlbp] at hn
    cases hn
    exact Nat.le_refl _
  have hname : Plain (.op s :: (r ++ rest)) := by
    constructor <;> rintro rfl <;> exact nomatch hlbp
  have htoks : (l ++ .op s :: r) ++ rest = l ++ .op s :: (r ++ rest) := by simp
  rw [htoks] at hfuel ⊢
  obtain ⟨fuel1, hfuel1, heq⟩ := hl m hm _ hnext hname fuel hfuel
  obtain ⟨fuel1, rfl⟩ := Nat.exists_eq_add_of_le' (show 1 ≤ fuel1 by omega)
  rw [List.length_cons] at hfuel1
  have hrhs : expression num text fuel1 (level + 1) (r ++ rest) = return (er, rest) :=
    hr.ends (Nat.le_refl _) hallows.tighter hplain (hallows.stops (Nat.lt_succ_self level))
      (by omega)
  refine ⟨fuel1, ?_, ?_⟩
  · rw [List.length_append] at hfuel1
    omega
  · rw [heq, operators_binary hlbp hm, hrhs, pure_bind]

theorem Reads.ternary {c t f : List (Tok F)} {ec et ef : Expr F} (hc : Reads num text 1 c ec)
    (ht : Reads num text 0 t et) (hf : Reads num text 0 f ef) :
    Reads num text 0 (c ++ .op "?" :: (t ++ .op ":" :: f)) (.ternary ec et ef) := by
  intro m hm rest hallows hplain fuel hfuel
  obtain rfl : m = 0 := by omega
  have hquestion : Allows 1 (.op "?" :: (t ++ .op ":" :: (f ++ rest))) :=
    ⟨fun n op hn => (nomatch hn : False).elim, fun _ => Nat.le_refl 1⟩
  have hname : Plain (.op "?" :: (t ++ .op ":" :: (f ++ rest))) := ⟨by decide, by decide⟩
  have htoks : (c ++ .op "?" :: (t ++ .op ":" :: f)) ++ rest =
      c ++ .op "?" :: (t ++ .op ":" :: (f ++ rest)) := by simp
  rw [htoks] at hfuel ⊢
  obtain ⟨fuel1, hfuel1, heq⟩ := hc 0 (by omega) _ hquestion hname fuel hfuel
  obtain ⟨fuel1, rfl⟩ := Nat.exists_eq_add_of_le' (show 1 ≤ fuel1 by omega)
  simp only [List.length_cons, List.length_append] at hfuel1
  have hthen : expression num text fuel1 0 (t ++ .op ":" :: (f ++ rest)) =
      return (et, .op ":" :: (f ++ rest)) :=
    ht.closed (by simp) (by simp only [List.length_cons, List.length_append]; omega)
  have helse : expression num text fuel1 0 (f ++ rest) = return (ef, rest) :=
    hf.ends (Nat.le_refl 0) hallows hplain hallows.stops_zero (by rw [List.length_append]; omega)
  refine ⟨fuel1, by omega, ?_⟩
  rw [heq, operators_question, if_neg (by omega), hthen, pure_bind]
  simp only [expectOp_self, pure_bind, helse]

theorem ReadsOperand.unary {s : String} {op : UnOp}
    (hs : s = "-" ∧ op = .neg ∨ s = "!" ∧ op = .not) (h : ReadsOperand num text ts e) :
    ReadsOperand num text (.op s :: ts) (.unary op e) := by
  intro rest hplain fuel hfuel
  simp only [List.cons_append, List.length_cons] at hfuel ⊢
  obtain ⟨fuel, rfl⟩ := Nat.exists_eq_add_of_le' (show 1 ≤ fuel by omega)
  have hoperand := h rest hplain fuel (by omega)
  rcases hs with ⟨rfl, rfl⟩ | ⟨rfl, rfl⟩ <;> rw [primary, hoperand, pure_bind]

theorem readsOperand_num (n : F) : ReadsOperand num text [.num n] (.num n) := by
  intro rest _ fuel hfuel
  obtain ⟨fuel, rfl⟩ := Nat.exists_eq_add_of_le' (show 1 ≤ fuel by omega)
  rw [List.singleton_append, primary]

theorem readsOperand_str (s : String) : ReadsOperand num text [(.str s : Tok F)] (.str s) := by
  intro rest _ fuel hfuel
  obtain ⟨fuel, rfl⟩ := Nat.exists_eq_add_of_le' (show 1 ≤ fuel by omega)
  rw [List.singleton_append, primary]

theorem readsOperand_ident (name : String) :
    ReadsOperand num text [(.ident name : Tok F)] (.ident name) := by
  intro rest hplain fuel hfuel
  obtain ⟨fuel, rfl⟩ := Nat.exists_eq_add_of_le' (show 1 ≤ fuel by omega)
  rw [List.singleton_append, primary]
  · rintro rest' rfl
    exact hplain.1 rfl
  · rintro rest' rfl
    exact hplain.2 rfl
  · rintro rest' rfl
    exact hplain.2 rfl

theorem Reads.index (name : String) (h : Reads num text 0 ts e) :
    ReadsOperand num text (.ident name :: .op "[" :: (ts ++ [.op "]"])) (.index name e) := by
  intro rest _ fuel hfuel
  simp only [List.cons_append, List.append_assoc, List.nil_append, List.length_cons] at hfuel ⊢
  obtain ⟨fuel, rfl⟩ := Nat.exists_eq_add_of_le' (show 1 ≤ fuel by omega)
  have hidx : expression num text fuel 0 (ts ++ .op "]" :: rest) = return (e, .op "]" :: rest) :=
    h.closed (by simp) (by omega)
  rw [primary, hidx, pure_bind]
  simp only [expectOp_self, pure_bind]

theorem Reads.paren (h : Reads num text 0 ts e) :
    ReadsOperand num text (.op "(" :: (ts ++ [.op ")"])) e := by
  intro rest _ fuel hfuel
  simp only [List.cons_append, List.append_assoc, List.nil_append, List.length_cons] at hfuel ⊢
  obtain ⟨fuel, rfl⟩ := Nat.exists_eq_add_of_le' (show 1 ≤ fuel by omega)
  have hinner : expression num text fuel 0 (ts ++ .op ")" :: rest) = return (e, .op ")" :: rest) :=
    h.closed (by simp) (by omega)
  rw [primary, hinner, pure_bind]
  simp only [expectOp_self, pure_bind]

/-- The arguments of a call, by induction on their list. -/
theorem reads_arguments {args : List (List (Tok F) × Expr F)} (hne : args ≠ [])
    (h : ∀ arg ∈ args, Reads num text 0 arg.1 arg.2) (rest : List (Tok F))
    (hfuel : 2 * (List.intercalate [.op ","] (args.map Prod.fst) ++ .op ")" :: rest).length + 3 ≤
      fuel) :
    arguments num text fuel (List.intercalate [.op ","] (args.map Prod.fst) ++ .op ")" :: rest) =
      return (args.map Prod.snd, rest) := by
  induction args generalizing fuel with
  | nil => exact absurd rfl hne
  | cons arg args ih =>
    have harg := h arg List.mem_cons_self
    obtain ⟨fuel, rfl⟩ := Nat.exists_eq_add_of_le' (show 1 ≤ fuel by omega)
    cases args with
    | nil =>
      simp only [List.map_cons, List.map_nil, List.intercalate_singleton] at hfuel ⊢
      have hlast : expression num text fuel 0 (arg.1 ++ .op ")" :: rest) =
          return (arg.2, .op ")" :: rest) := harg.closed (by simp) (by omega)
      rw [arguments, hlast, pure_bind]
      rfl
    | cons next args =>
      have htoks : List.intercalate [.op ","] ((arg :: next :: args).map Prod.fst) ++
            .op ")" :: rest =
          arg.1 ++ .op "," :: (List.intercalate [.op ","] ((next :: args).map Prod.fst) ++
            .op ")" :: rest) := by
        rw [List.map_cons, List.map_cons, List.intercalate_cons_cons]
        simp
      rw [htoks] at hfuel ⊢
      rw [List.length_append, List.length_cons] at hfuel
      have hfirst : expression num text fuel 0 (arg.1 ++ .op "," :: _) =
          return (arg.2, .op "," :: (List.intercalate [.op ","] ((next :: args).map Prod.fst) ++
            .op ")" :: rest)) :=
        harg.closed (by simp) (by rw [List.length_append, List.length_cons]; omega)
      have hothers : arguments num text fuel _ = return ((next :: args).map Prod.snd, rest) :=
        ih (by simp) (fun arg' harg' => h arg' (List.mem_cons_of_mem arg harg')) (by omega)
      rw [arguments, hfirst, pure_bind]
      change (arguments num text fuel _ >>= fun r => pure (arg.2 :: r.1, r.2)) = _
      rw [hothers, pure_bind]
      rfl

theorem Derives.first (h : Derives level ts e) : ∃ t more, ts = t :: more ∧ t ≠ .op ")" := by
  induction h with
  | ternary _ _ _ ih _ _ | binary _ _ _ ih _ =>
    obtain ⟨t, more, rfl, ht⟩ := ih
    exact ⟨t, _, rfl, ht⟩
  | tighter _ ih => exact ih
  | neg | not | num | str | ident | index | call | paren => exact ⟨_, _, rfl, by simp⟩

theorem reads_call (name : String) {args : List (List (Tok F) × Expr F)}
    (hargs : ∀ arg ∈ args, Derives 0 arg.1 arg.2)
    (h : ∀ arg ∈ args, Reads num text 0 arg.1 arg.2) :
    ReadsOperand num text
      (.ident name :: .op "(" :: (List.intercalate [.op ","] (args.map Prod.fst) ++ [.op ")"]))
      (.call name (args.map Prod.snd)) := by
  intro rest _ fuel hfuel
  simp only [List.cons_append, List.append_assoc, List.nil_append, List.length_cons] at hfuel ⊢
  obtain ⟨fuel, rfl⟩ := Nat.exists_eq_add_of_le' (show 1 ≤ fuel by omega)
  cases args with
  | nil => rw [List.map_nil, List.intercalate_nil, List.nil_append, primary, List.map_nil]
  | cons arg args =>
    have hall : arguments num text fuel _ = return ((arg :: args).map Prod.snd, rest) :=
      reads_arguments (List.cons_ne_nil arg args) h rest (by omega)
    rw [primary, hall, pure_bind]
    -- the first argument is no closing parenthesis
    intro rest' heq
    obtain ⟨t, more, htoks, ht⟩ := (hargs arg List.mem_cons_self).first
    cases args with
    | nil =>
      rw [List.map_cons, List.map_nil, List.intercalate_singleton, htoks] at heq
      exact ht (List.cons.inj heq).1
    | cons next args =>
      rw [List.map_cons, List.map_cons, List.intercalate_cons_cons, htoks] at heq
      exact ht (List.cons.inj heq).1

variable (num text) in
/-- **What is derived is read**, by induction on the derivation. -/
theorem Derives.reads (h : Derives level ts e) :
    Reads num text level ts e ∧ (11 ≤ level → ReadsOperand num text ts e) := by
  induction h with
  | ternary _ _ _ hc ht hf => exact ⟨hc.1.ternary ht.1 hf.1, fun h => by omega⟩
  | binary hs _ _ hl hr =>
    have := operatorsAt_pos hs
    exact ⟨.binary hs hl.1 hr.1, fun h => by omega⟩
  | tighter _ ih =>
    refine ⟨fun m hm rest hallows => ih.1 m (Nat.le_succ_of_le hm) rest hallows.tighter, ?_⟩
    exact fun h => ih.2 (Nat.le_succ_of_le h)
  | neg _ ih =>
    have := (ih.2 (Nat.le_refl _)).unary (.inl ⟨rfl, rfl⟩)
    exact ⟨this.reads, fun _ => this⟩
  | not _ ih =>
    have := (ih.2 (Nat.le_refl _)).unary (.inr ⟨rfl, rfl⟩)
    exact ⟨this.reads, fun _ => this⟩
  | num n => exact ⟨(readsOperand_num n).reads, fun _ => readsOperand_num n⟩
  | str s => exact ⟨(readsOperand_str s).reads, fun _ => readsOperand_str s⟩
  | ident name => exact ⟨(readsOperand_ident name).reads, fun _ => readsOperand_ident name⟩
  | index name _ ih => exact ⟨(ih.1.index name).reads, fun _ => ih.1.index name⟩
  | call name args hargs ih =>
    have : ReadsOperand num text _ (.call name (args.map Prod.snd)) :=
      reads_call name hargs fun arg harg => (ih arg harg).1
    exact ⟨this.reads, fun _ => this⟩
  | paren _ ih => exact ⟨ih.1.paren.reads, fun _ => ih.1.paren⟩

/-! ## What is read is derived -/

variable (F num text) in
/-- With this much fuel whatever the parser reads is derived, and it stops where the level does. -/
structure Sound (fuel : ℕ) : Prop where
  expression : ∀ m ≤ 11, ∀ toks : List (Tok F),
    Exec.Yields (expression num text fuel m toks) fun r =>
      ∃ used, toks = used ++ r.2 ∧ Derives m used r.1 ∧ Stops m r.2
  operators : ∀ (m level : ℕ) (used : List (Tok F)) (lhs : Expr F) (toks : List (Tok F)),
    Derives level used lhs → m ≤ level → Allows level toks →
    Exec.Yields (operators num text fuel m lhs toks) fun r =>
      ∃ more, toks = more ++ r.2 ∧ Derives m (used ++ more) r.1 ∧ Stops m r.2
  primary : ∀ toks : List (Tok F), Exec.Yields (primary num text fuel toks) fun r =>
    ∃ used, toks = used ++ r.2 ∧ Derives 11 used r.1
  arguments : ∀ toks : List (Tok F), Exec.Yields (arguments num text fuel toks) fun r =>
    ∃ args : List (List (Tok F) × Expr F), args ≠ [] ∧
      toks = List.intercalate [.op ","] (args.map Prod.fst) ++ .op ")" :: r.2 ∧
      (∀ arg ∈ args, Derives 0 arg.1 arg.2) ∧ r.1 = args.map Prod.snd

theorem yields_parserErr {α : Type} {P : α → Prop} (msg : String) :
    Exec.Yields (parserErr num text msg) P := Exec.yields_throw _

theorem yields_expectOp (s : String) (toks : List (Tok F)) :
    Exec.Yields (expectOp num text s toks) fun rest => toks = .op s :: rest := by
  unfold expectOp
  split
  · split_ifs with hs
    · exact Exec.yields_pure (by rw [hs])
    · exact yields_parserErr _
  · exact yields_parserErr _

theorem allows_eleven (toks : List (Tok F)) : Allows 11 toks := by
  cases toks with
  | nil => trivial
  | cons t rest =>
    cases t with
    | op s =>
      refine ⟨fun n op hn => ?_, fun _ => by omega⟩
      have := operatorsAt_pos (lbp_eq_some.mp hn)
      omega
    | num | str | ident => trivial

namespace Sound

variable (h : Sound F num text fuel)
include h

theorem expression_succ (m : ℕ) (hm : m ≤ 11) (toks : List (Tok F)) :
    Exec.Yields (TsIni.expression num text (fuel + 1) m toks) fun r =>
      ∃ used, toks = used ++ r.2 ∧ Derives m used r.1 ∧ Stops m r.2 := by
  unfold TsIni.expression
  refine (h.primary toks).bind ?_
  rintro ⟨lhs, rest⟩ ⟨used, rfl, hlhs⟩
  intro r hr
  obtain ⟨more, hmore, hderives, hstops⟩ :=
    h.operators m 11 used lhs rest hlhs hm (allows_eleven rest) r hr
  exact ⟨used ++ more, by rw [List.append_assoc, ← hmore], hderives, hstops⟩

theorem operators_succ (m level : ℕ) (used : List (Tok F)) (lhs : Expr F) (toks : List (Tok F))
    (hlhs : Derives level used lhs) (hm : m ≤ level) (hallows : Allows level toks) :
    Exec.Yields (TsIni.operators num text (fuel + 1) m lhs toks) fun r =>
      ∃ more, toks = more ++ r.2 ∧ Derives m (used ++ more) r.1 ∧ Stops m r.2 := by
  by_cases hstops : Stops m toks
  · rw [operators_stops hstops]
    refine Exec.yields_pure ⟨[], rfl, ?_, hstops⟩
    rw [List.append_nil]
    exact hlhs.loosen hm
  · cases toks with
    | nil => exact absurd trivial hstops
    | cons t rest =>
      cases t with
      | num | str | ident => exact absurd trivial hstops
      | op s =>
        by_cases hs : s = "?"
        · subst hs
          have hm0 : m = 0 := by
            by_contra hne
            refine hstops ⟨fun n op hn => ?_, fun _ => by omega⟩
            exact nomatch hn
          subst hm0
          rw [operators_question, if_neg (by omega)]
          refine (h.expression 0 (by omega) rest).bind ?_
          rintro ⟨then_, rest1⟩ ⟨t, rfl, ht, -⟩
          refine (yields_expectOp ":" rest1).bind ?_
          rintro rest2 rfl
          refine (h.expression 0 (by omega) rest2).bind ?_
          rintro ⟨alt, rest3⟩ ⟨f, rfl, hf, hend⟩
          have hcond := hlhs.loosen (hallows.2 rfl)
          intro r hr
          obtain ⟨more, hmore, hderives, hstops'⟩ :=
            h.operators 0 0 _ _ rest3 (.ternary hcond ht hf) (by omega) hend.allows_zero r hr
          refine ⟨.op "?" :: (t ++ .op ":" :: f) ++ more, ?_, ?_, hstops'⟩
          · dsimp only at hmore ⊢
            rw [hmore]
            simp
          · simpa using hderives
        · cases hlbp : lbp s with
          | none =>
            refine absurd ⟨fun n op hn => ?_, fun h => absurd h hs⟩ hstops
            rw [hlbp] at hn
            exact nomatch hn
          | some p =>
            obtain ⟨n, op⟩ := p
            have hmn : m ≤ n := by
              by_contra hlt
              refine hstops ⟨fun n' op' hn => ?_, fun h => absurd h hs⟩
              rw [hlbp] at hn
              cases hn
              omega
            have hmem := lbp_eq_some.mp hlbp
            have hn := operatorsAt_pos hmem
            rw [operators_binary hlbp hmn]
            refine (h.expression (n + 1) (by omega) rest).bind ?_
            rintro ⟨rhs, rest1⟩ ⟨r, rfl, hr, hend⟩
            have hleft := hlhs.loosen (hallows.1 n op hlbp)
            intro res hres
            obtain ⟨more, hmore, hderives, hstops'⟩ :=
              h.operators m n _ _ rest1 (.binary hmem hleft hr) hmn (hend.allows hn.1) res hres
            refine ⟨.op s :: r ++ more, ?_, ?_, hstops'⟩
            · dsimp only at hmore ⊢
              rw [hmore]
              simp
            · simpa using hderives

theorem primary_succ (toks : List (Tok F)) :
    Exec.Yields (TsIni.primary num text (fuel + 1) toks) fun r =>
      ∃ used, toks = used ++ r.2 ∧ Derives 11 used r.1 := by
  unfold TsIni.primary
  split
  case h_1 heq => exact nomatch heq
  case h_2 n _ _ => exact Exec.yields_pure ⟨[.num n], rfl, .tighter (.num n)⟩
  case h_3 s _ _ => exact Exec.yields_pure ⟨[.str s], rfl, .tighter (.str s)⟩
  case h_4 name toks heq =>
    obtain rfl := Nat.succ.inj heq
    refine (h.expression 0 (by omega) toks).bind ?_
    rintro ⟨idx, rest⟩ ⟨used, rfl, hidx, -⟩
    refine (yields_expectOp "]" rest).bind ?_
    rintro rest' rfl
    exact Exec.yields_pure ⟨_, by simp, .tighter (.index name hidx)⟩
  case h_5 name toks _ =>
    exact Exec.yields_pure ⟨[.ident name, .op "(", .op ")"], rfl,
      .tighter (.call name [] fun _ harg => absurd harg List.not_mem_nil)⟩
  case h_6 name toks _ heq =>
    obtain rfl := Nat.succ.inj heq
    refine (h.arguments toks).bind ?_
    rintro ⟨args', rest⟩ ⟨args, -, rfl, hargs, rfl⟩
    exact Exec.yields_pure ⟨_, by simp, .tighter (.call name args hargs)⟩
  case h_7 name toks _ _ _ _ => exact Exec.yields_pure ⟨[.ident name], rfl, .tighter (.ident name)⟩
  case h_8 toks heq =>
    obtain rfl := Nat.succ.inj heq
    refine (h.expression 0 (by omega) toks).bind ?_
    rintro ⟨e, rest⟩ ⟨used, rfl, he, -⟩
    refine (yields_expectOp ")" rest).bind ?_
    rintro rest' rfl
    exact Exec.yields_pure ⟨_, by simp, .tighter (.paren he)⟩
  case h_9 toks heq =>
    obtain rfl := Nat.succ.inj heq
    refine (h.primary toks).bind ?_
    rintro ⟨e, rest⟩ ⟨used, rfl, he⟩
    exact Exec.yields_pure ⟨.op "-" :: used, rfl, .neg he⟩
  case h_10 toks heq =>
    obtain rfl := Nat.succ.inj heq
    refine (h.primary toks).bind ?_
    rintro ⟨e, rest⟩ ⟨used, rfl, he⟩
    exact Exec.yields_pure ⟨.op "!" :: used, rfl, .not he⟩
  case h_11 => exact yields_parserErr _

theorem arguments_succ (toks : List (Tok F)) :
    Exec.Yields (TsIni.arguments num text (fuel + 1) toks) fun r =>
      ∃ args : List (List (Tok F) × Expr F), args ≠ [] ∧
        toks = List.intercalate [.op ","] (args.map Prod.fst) ++ .op ")" :: r.2 ∧
        (∀ arg ∈ args, Derives 0 arg.1 arg.2) ∧ r.1 = args.map Prod.snd := by
  unfold TsIni.arguments
  refine (h.expression 0 (by omega) toks).bind ?_
  rintro ⟨e, rest⟩ ⟨used, rfl, he, -⟩
  dsimp only
  split
  · next rest' =>
    refine (h.arguments rest').bind ?_
    rintro ⟨args', rest⟩ ⟨args, hne, rfl, hargs, rfl⟩
    refine Exec.yields_pure ⟨(used, e) :: args, List.cons_ne_nil _ _, ?_, ?_, rfl⟩
    · rw [List.map_cons, List.intercalate_cons_of_ne_nil (by simpa using hne)]
      simp
    · intro arg harg
      rcases List.mem_cons.mp harg with rfl | harg
      exacts [he, hargs arg harg]
  · refine Exec.yields_pure ⟨[(used, e)], List.cons_ne_nil _ _, by simp, ?_, rfl⟩
    intro arg harg
    obtain rfl := List.mem_singleton.mp harg
    exact he
  · exact yields_parserErr _

end Sound

theorem yields_stackOverflow {α : Type} {P : α → Prop} :
    Exec.Yields ((.error .stackOverflow : Exec (Except ParseError α)) : Parse α) P :=
  fun _ h => nomatch h

variable (F num text) in
/-- **What is read is derived**, by induction on the fuel. -/
theorem sound (fuel : ℕ) : Sound F num text fuel := by
  induction fuel with
  | zero =>
    refine ⟨fun m _ toks => ?_, fun m level used lhs toks _ _ _ => ?_, fun toks => ?_,
      fun toks => ?_⟩
    · unfold TsIni.expression
      exact yields_stackOverflow
    · unfold TsIni.operators
      exact yields_stackOverflow
    · unfold TsIni.primary
      exact yields_stackOverflow
    · unfold TsIni.arguments
      exact yields_stackOverflow
  | succ fuel ih =>
    exact ⟨ih.expression_succ, ih.operators_succ, ih.primary_succ, ih.arguments_succ⟩

/-! ## The parser and its grammar -/

/-- The parser after the scan: all tokens are one expression. -/
def parseToks (num : ℕ) (text : String) (toks : List (Tok F)) : Parse (Expr F) := do
  let (e, rest) ← expression num text (2 * toks.length + 2) 0 toks
  if rest = [] then return e else parserErr num text "trailing input"

theorem parseExpr_eq [F64 F] (num : ℕ) (text : String) :
    (parseExpr num text : Parse (Expr F)) =
      liftParse (scan num text) >>= fun toks => parseToks num text toks := rfl

theorem parseToks_iff {e : Expr F} :
    (parseToks num text toks).run = .ok (.ok e) ↔ Derives 0 toks e := by
  constructor
  · intro h
    obtain ⟨⟨e', rest⟩, hexpr, h⟩ := Exec.attempt_bind_eq_ok.mp h
    obtain ⟨used, htoks, hderives, -⟩ := (sound F num text _).expression 0 (by omega) toks _ hexpr
    dsimp only at htoks hderives h
    split_ifs at h with hrest
    · cases h
      rw [htoks, hrest, List.append_nil]
      exact hderives
    · exact absurd h (yields_parserErr (P := fun _ => False) _ _)
  · intro h
    have hread : expression num text (2 * toks.length + 2) 0 (toks ++ []) = return (e, []) :=
      (h.reads num text).1.ends (Nat.le_refl 0) trivial trivial trivial (by simp)
    rw [List.append_nil] at hread
    rw [parseToks, hread, pure_bind]
    rfl

/-- A text is an expression when its tokens are. -/
theorem parseExpr_iff [F64 F] {e : Expr F} : (parseExpr num text).run = .ok (.ok e) ↔
    ∃ toks, scan num text = .ok toks ∧ Derives 0 toks e := by
  rw [parseExpr_eq, Exec.attempt_bind_eq_ok]
  constructor
  · rintro ⟨toks, hscan, h⟩
    exact ⟨toks, Except.ok.inj hscan, parseToks_iff.mp h⟩
  · rintro ⟨toks, hscan, h⟩
    exact ⟨toks, by rw [hscan]; rfl, parseToks_iff.mpr h⟩

/-- **The parser accepts exactly the token lists of the grammar, and returns their only tree.** -/
theorem parse_grammar (num : ℕ) (text : String) (toks : List (Tok F)) :
    (∀ e, (parseToks num text toks).run = .ok (.ok e) ↔ Derives 0 toks e) ∧
      ∀ e e', Derives 0 toks e → Derives 0 toks e' → e = e' := by
  refine ⟨fun e => parseToks_iff, fun e e' h h' => ?_⟩
  have heq : (parseToks num text toks).run = .ok (.ok e) := parseToks_iff.mpr h
  rw [parseToks_iff.mpr h'] at heq
  exact (Except.ok.inj (Except.ok.inj heq)).symm

end Parser

end RustyTune.TsIni
