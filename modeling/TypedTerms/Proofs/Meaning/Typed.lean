import TypedTerms.Proofs.Folding.Typed
import TypedTerms.Proofs.Meaning.Interpretation

/-!
# Well-typed trees have values

An operator that fits over its operands has a meaning on values of their
types, and its value is of the type of the node. So a well-typed tree has
a value of its type, in every interpretation and under every assignment.
-/

namespace TypedTerms

namespace Interpretation

variable (I : Interpretation) {A : Ty} {op : Operator} {first x y : Tree} {rest : List Tree}
  {vs : List I.Value} {σ : I.Assignment}

/-! ## Operators on values of a type -/

/-- An operator on one number has a value on a number of any type that has
operators. -/
theorem unary_mk {f : ∀ A, I.domains.Operations (I.Of A) → I.Of A → I.Value} {a : I.Of A}
    {o : I.domains.Operations (I.Of A)} (ho : I.operations? A = some o) :
    unary f [⟨A, a⟩] = some (f A o a) := by
  rw [unary, ho, Option.map_some]

theorem binary_mk {f : ∀ A, I.domains.Operations (I.Of A) → I.Of A → I.Of A → I.Value}
    {a b : I.Of A} {o : I.domains.Operations (I.Of A)} (ho : I.operations? A = some o) :
    binary f [⟨A, a⟩, ⟨A, b⟩] = some (f A o a b) := by
  rw [binary, ho, Domains.Value.as?_mk]
  rfl

/-- The integers, the rational and the real numbers have operators. -/
theorem exists_operations (h : A = .integer ∨ A = .rational ∨ A = .real) :
    ∃ o, I.operations? A = some o := by
  rcases h with rfl | rfl | rfl
  · exact ⟨_, rfl⟩
  · exact ⟨_, rfl⟩
  · exact ⟨_, rfl⟩

/-- Values of the type of truth values are truth values. -/
theorem exists_truths {vs : List I.Value} (h : ∀ v ∈ vs, v.ty = .bool) :
    ∃ ps, I.truths? vs = some ps := by
  induction vs with
  | nil => exact ⟨[], rfl⟩
  | cons v vs ih =>
    obtain ⟨hv, hvs⟩ := List.forall_mem_cons.mp h
    obtain ⟨ps, hps⟩ := ih hvs
    obtain ⟨B, p⟩ := v
    cases hv
    refine ⟨p :: ps, ?_⟩
    rw [truths?] at hps ⊢
    rw [List.mapM_cons, hps]
    rfl

/-- The value is of the type of the tree. -/
abbrev OfTy (T : Tree) (v : I.Value) : Prop := T.ty = .ok v.ty

/-- Arguments for parameters are taken one by one. -/
theorem args?_cons {params : List Ty} (a : I.Of A) :
    Domains.args? (A :: params) (⟨A, a⟩ :: vs) = (Domains.args? params vs).map (.cons a) := by
  rw [Domains.args?, Domains.Value.as?_mk, Option.bind_some]

/-- Values of the types of trees are arguments for parameters of these
types. -/
theorem exists_args {Ts : List Tree} {params : List Ty}
    (h : List.Forall₂ I.OfTy Ts vs)
    (hTs : Ts.map Tree.ty = params.map .ok) : ∃ args, Domains.args? params vs = some args := by
  induction h generalizing params with
  | nil =>
    cases params with
    | nil => exact ⟨.nil, rfl⟩
    | cons => cases hTs
  | @cons T v _ _ hv _ ih =>
    cases params with
    | nil => cases hTs
    | cons A params =>
      obtain ⟨hT, hTs⟩ := List.cons.inj hTs
      obtain ⟨args, hargs⟩ := ih hTs
      obtain ⟨B, b⟩ := v
      cases hT.symm.trans hv
      exact ⟨.cons b args, by rw [I.args?_cons, hargs, Option.map_some]⟩

/-- A value of the type of a tree is one in the domain of that type. -/
theorem exists_of_ofTy {v : I.Value} (hA : x.ty = .ok A) (hv : I.OfTy x v) :
    ∃ a : I.Of A, v = ⟨A, a⟩ := by
  obtain ⟨B, b⟩ := v
  cases hA.symm.trans hv
  exact ⟨b, rfl⟩

/-- The values of one operand are one value, of its type. -/
theorem exists_one (hA : x.ty = .ok A) (h : List.Forall₂ I.OfTy [x] vs) :
    ∃ a : I.Of A, vs = [⟨A, a⟩] := by
  cases h with
  | cons hv hnil =>
    cases hnil
    obtain ⟨a, rfl⟩ := I.exists_of_ofTy hA hv
    exact ⟨a, rfl⟩

/-- The values of two operands of one type are two values of that type. -/
theorem exists_two (hx : x.ty = .ok A) (hy : y.ty = .ok A) (h : List.Forall₂ I.OfTy [x, y] vs) :
    ∃ a b : I.Of A, vs = [⟨A, a⟩, ⟨A, b⟩] := by
  cases h with
  | cons hv h =>
    obtain ⟨b, rfl⟩ := I.exists_one hy h
    obtain ⟨a, rfl⟩ := I.exists_of_ofTy hx hv
    exact ⟨a, b, rfl⟩

/-- Over one operand that is a number, an operator has a value: what it
makes of the value of the operand. -/
theorem exists_unary {P : Ty → Prop} (fits : Uniform 1 P ((first :: rest).map Tree.operand))
    (numeric : ∀ A, P A → A = .integer ∨ A = .rational ∨ A = .real)
    (hvs : List.Forall₂ I.OfTy (first :: rest) vs) :
    ∃ (A : Ty) (o : I.domains.Operations (I.Of A)) (a : I.Of A), first.ty = .ok A ∧
      ∀ f, unary f vs = some (f A o a) := by
  obtain ⟨A, rfl, hA, hx⟩ := Tree.exists_of_uniform_one fits
  obtain ⟨a, rfl⟩ := I.exists_one hx hvs
  obtain ⟨o, ho⟩ := I.exists_operations (numeric A hA)
  exact ⟨A, o, a, hx, fun f => I.unary_mk ho⟩

/-- Over two operands that are numbers of one type, an operator has a
value: what it makes of their values. -/
theorem exists_binary {P : Ty → Prop} (fits : Uniform 2 P ((first :: rest).map Tree.operand))
    (numeric : ∀ A, P A → A = .integer ∨ A = .rational ∨ A = .real)
    (hvs : List.Forall₂ I.OfTy (first :: rest) vs) :
    ∃ (A : Ty) (o : I.domains.Operations (I.Of A)) (a b : I.Of A), first.ty = .ok A ∧
      ∀ f, binary f vs = some (f A o a b) := by
  obtain ⟨y, A, rfl, hA, hx, hy⟩ := Tree.exists_of_uniform_two fits
  obtain ⟨a, b, rfl⟩ := I.exists_two hx hy hvs
  obtain ⟨o, ho⟩ := I.exists_operations (numeric A hA)
  exact ⟨A, o, a, b, hx, fun f => I.binary_mk ho⟩

/-- An operator that fits has a meaning on values of the types of its
operands. -/
theorem exists_operate (fits : op.Fits ((first :: rest).map Tree.operand))
    (hop : op.operandRule ≠ .binding) (hvs : List.Forall₂ I.OfTy (first :: rest) vs) :
    ∃ w, I.operate op vs = some w ∧ I.OfTy (.app op first rest) w := by
  cases op with
  | universal | existential => exact absurd rfl hop
  | and | or =>
    have hbool : ∀ v ∈ vs, v.ty = .bool := by
      intro v hv
      obtain ⟨C, hC, hCv⟩ := exists_of_mem_left hvs.flip hv
      exact Except.ok.inj (hCv.symm.trans (List.forall_mem_map.mp fits C hC))
    obtain ⟨ps, hps⟩ := I.exists_truths hbool
    simp only [operate, hps, Option.map_some]
    exact ⟨_, rfl, Tree.ty_of_always rfl⟩
  | not =>
    obtain ⟨A, rfl, rfl, hA⟩ := Tree.exists_of_uniform_one fits
    obtain ⟨p, rfl⟩ := I.exists_one hA hvs
    exact ⟨.truth ¬ p, rfl, Tree.ty_of_always rfl⟩
  | equivalent =>
    obtain ⟨y, A, rfl, rfl, hx, hy⟩ := Tree.exists_of_uniform_two fits
    obtain ⟨p, q, rfl⟩ := I.exists_two hx hy hvs
    exact ⟨.truth (p ↔ q), rfl, Tree.ty_of_always rfl⟩
  | equals =>
    obtain ⟨y, A, rfl, -, hx, hy⟩ := Tree.exists_of_uniform_two fits
    obtain ⟨a, b, rfl⟩ := I.exists_two hx hy hvs
    exact ⟨_, if_pos rfl, Tree.ty_of_always rfl⟩
  | isInteger | isRational | toInteger | toRational | toReal =>
    obtain ⟨A, o, a, -, hvalue⟩ := I.exists_unary fits (fun _ => id) hvs
    exact ⟨_, hvalue _, Tree.ty_of_always rfl⟩
  | rounding | negate =>
    obtain ⟨A, o, a, hx, hvalue⟩ := I.exists_unary fits (fun _ => id) hvs
    exact ⟨_, hvalue _, (Tree.ty_of_firstOperand rfl).trans hx⟩
  | less | lessEquals =>
    obtain ⟨A, o, a, b, -, hvalue⟩ := I.exists_binary fits (fun _ => id) hvs
    exact ⟨_, hvalue _, Tree.ty_of_always rfl⟩
  | add | subtract | multiply | quotient | remainder =>
    obtain ⟨A, o, a, b, hx, hvalue⟩ := I.exists_binary fits (fun _ => id) hvs
    exact ⟨_, hvalue _, (Tree.ty_of_firstOperand rfl).trans hx⟩
  | divide =>
    obtain ⟨A, o, a, b, hx, hvalue⟩ := I.exists_binary fits (fun _ => .inr) hvs
    exact ⟨_, hvalue _, (Tree.ty_of_firstOperand rfl).trans hx⟩
  | call =>
    obtain ⟨head, args, id, name, result, params, hxs, hhead, hargs⟩ := fits
    obtain ⟨rfl, rfl⟩ := List.cons.inj hxs
    cases hvs with
    | cons hf hvs =>
      obtain rfl := Tree.eq_leaf_of_leaf? hhead
      obtain ⟨f, rfl⟩ := I.exists_of_ofTy (A := .func result params) rfl hf
      rw [List.map_map] at hargs
      obtain ⟨args, hargs⟩ := I.exists_args hvs hargs
      exact ⟨⟨result, I.apply f args⟩, congrArg (Option.map _) hargs, rfl⟩

/-! ## Trees -/

/-- A node that is not a quantifier looks at the values of its children
only. -/
theorem node_eq_operate {listed : List Leaf} {children : List I.Meaning}
    (hop : op.operandRule ≠ .binding) :
    I.node op listed children σ =
      (children.mapM fun child : I.Meaning => child σ).bind (I.operate op) := by
  cases op with
  | universal | existential => exact absurd rfl hop
  | _ => rfl

/-- A node that binds nothing has the value of its operator on the values of
its children. -/
theorem value_eq_operate (hop : op.operandRule ≠ .binding)
    (h : List.Forall₂ (fun C v => I.value C σ = some v) (first :: rest) vs) :
    I.value (.app op first rest) σ = I.operate op vs := by
  have hvalues : ((first :: rest).map I.value).mapM (fun child : I.Meaning => child σ) =
      some vs := by
    rw [List.mapM_map]
    exact mapM_eq_pure h
  rw [value_app, I.node_eq_operate hop, hvalues, Option.bind_some]

/-- A quantifier has a truth value, whatever it stands over. -/
theorem exists_value_quantifier (hop : op.operandRule = .binding) (σ : I.Assignment) :
    ∃ p : Prop, I.value (.app op first rest) σ = some (.truth p) ∧
      op.resultRule = .always .bool := by
  rw [value_app]
  cases op with
  | universal | existential => exact ⟨_, rfl, rfl⟩
  | _ => cases hop

theorem ty_leaf (σ : I.Assignment) (l : Leaf) : (I.leaf σ l).ty = l.ty := by cases l <;> rfl

/-- A well-typed tree has a value, which is of its type. -/
theorem exists_value {T : Tree} (h : T.WellTyped) (σ : I.Assignment) :
    ∃ v, I.value T σ = some v ∧ I.OfTy T v := by
  induction T with
  | leaf l => exact ⟨_, I.value_leaf l σ, congrArg Except.ok (I.ty_leaf σ l).symm⟩
  | app op first rest ih =>
    obtain ⟨fits, hchildren⟩ := Tree.wellTyped_app_iff.mp h
    by_cases hop : op.operandRule = .binding
    · obtain ⟨p, hp, hresult⟩ := I.exists_value_quantifier hop σ
      exact ⟨_, hp, Tree.ty_of_always hresult⟩
    · obtain ⟨vs, hvs⟩ := exists_forall₂ fun C hC => ih C hC (hchildren C hC)
      obtain ⟨w, hw, hty⟩ := I.exists_operate fits hop (hvs.imp fun _ _ hv => hv.2)
      exact ⟨w, (I.value_eq_operate hop (hvs.imp fun _ _ hv => hv.1)).trans hw, hty⟩

/-- A well-typed tree has a value of its type. -/
theorem exists_value_of_ty {T : Tree} (h : T.WellTyped) (hA : T.ty = .ok A)
    (σ : I.Assignment) : ∃ a : I.Of A, I.value T σ = some ⟨A, a⟩ := by
  obtain ⟨v, hv, hty⟩ := I.exists_value h σ
  obtain ⟨a, rfl⟩ := I.exists_of_ofTy hA hty
  exact ⟨a, hv⟩

end Interpretation

end TypedTerms
