import LineBasic.Machine.Store
import LineBasic.Proofs.Check.Typing

/-!
# Types of what variables hold

The names of a store with the types of their values are a list of symbols, just as a scope is.
A store fits a scope if both lists are the same.  Writing a value of the right type keeps the
fit, and expressions that the checker has typed find values of their types.

Main definitions:

- `Value.type` and `Store.symbols`: the types of values, and of all that a store holds.

Main results:

- `Store.symbols_ofSymbols`: the store that a machine begins with fits.
- `Store.symbols_put_of_mem`: writing a value of the right type keeps all symbols.
- `eval_ok_or_arithmetic`: a typed expression has a value of its type, or its arithmetic faults.
-/

namespace LineBasic

/-! ## Lists of symbols -/

/-- A symbol that is there already stays where it is. -/
theorem putSymbol_of_mem {s : Symbol} {symbols : List Symbol}
    (hnodup : (symbols.map Symbol.name).Nodup) (h : s ∈ symbols) :
    putSymbol s symbols = symbols := by
  rcases putSymbol_cases s symbols with ⟨hnew, -⟩ | ⟨before, t, behind, rfl, ht, hput⟩
  · exact absurd (List.mem_map_of_mem h) hnew
  · have hthere : t ∈ before ++ t :: behind := List.mem_append_right before List.mem_cons_self
    rw [hput, Scope.eq_of_name_eq hnodup hthere h ht]

namespace Machine

/-- The type of the variables that can hold a value. -/
def Value.type : Value → SymbolType
  | integer _ => .integer
  | text _ => .string

/-- Every type with values has one to begin with. -/
theorem Value.exists_initial {type : SymbolType} (h : type ≠ .void) :
    ∃ v, Value.initial? type = some v ∧ v.type = type := by
  cases type with
  | void => exact absurd rfl h
  | integer => exact ⟨_, rfl, rfl⟩
  | string => exact ⟨_, rfl, rfl⟩

namespace Store

/-! ## Stores -/

/-- The names of a store with the types of their values. -/
def symbols (store : Store) : List Symbol :=
  store.map fun entry => ⟨entry.1, entry.2.type⟩

/-- The names of the symbols are those of the store. -/
theorem map_name_symbols (store : Store) : store.symbols.map Symbol.name = store.map Prod.fst := by
  simp [symbols, Function.comp_def]

/-- Writing a value puts its symbol in. -/
theorem symbols_put (store : Store) (name : String) (v : Value) :
    (store.put name v).symbols = putSymbol ⟨name, v.type⟩ store.symbols := by
  induction store with
  | nil => rfl
  | cons entry rest ih =>
    rcases entry with ⟨x, w⟩
    by_cases h : x = name
    · simp [put, symbols, putSymbol, h]
    · simpa [put, symbols, putSymbol, h] using ih

/-- A value of the type that a name has already keeps all types. -/
theorem symbols_put_of_mem {store : Store} (hnodup : (store.symbols.map Symbol.name).Nodup)
    {name : String} {v : Value} (h : ⟨name, v.type⟩ ∈ store.symbols) :
    (store.put name v).symbols = store.symbols := by
  rw [symbols_put, putSymbol_of_mem hnodup h]

/-- The initial value of the type that a name has already keeps all types. -/
theorem symbols_reset_of_mem {store : Store} (hnodup : (store.symbols.map Symbol.name).Nodup)
    {name : String} {type : SymbolType} (h : ⟨name, type⟩ ∈ store.symbols) :
    (store.reset name type).symbols = store.symbols := by
  unfold reset
  cases hinitial : Value.initial? type with
  | none => rfl
  | some v =>
    have hne : type ≠ .void := by
      rintro rfl
      cases hinitial
    rcases Value.exists_initial hne with ⟨w, hw, htype⟩
    rw [hw] at hinitial
    cases hinitial
    exact symbols_put_of_mem hnodup (htype ▸ h)

/-- Initial values for symbols with new names add these symbols. -/
theorem symbols_foldl_reset {store : Store} {added : List Symbol}
    (hnodup : ((store.symbols ++ added).map Symbol.name).Nodup)
    (hvoid : ∀ s ∈ added, s.type ≠ .void) :
    (added.foldl (fun store s => store.reset s.name s.type) store).symbols =
      store.symbols ++ added := by
  induction added generalizing store with
  | nil => simp
  | cons s rest ih =>
    rcases Value.exists_initial (hvoid s List.mem_cons_self) with ⟨v, hv, htype⟩
    have hnew : ∀ t ∈ store.symbols, t.name ≠ s.name := by
      intro t ht
      rw [List.map_append, List.nodup_append] at hnodup
      exact hnodup.2.2 _ (List.mem_map_of_mem ht) _ (List.mem_map_of_mem List.mem_cons_self)
    have hput : (store.reset s.name s.type).symbols = store.symbols ++ [s] := by
      simp only [reset, hv]
      rw [symbols_put, htype, Scope.putSymbol_of_not_mem hnew]
    rw [List.foldl_cons, ih (by simpa [hput] using hnodup)
      fun t ht => hvoid t (List.mem_cons_of_mem _ ht), hput, List.append_assoc]
    rfl

/-- The store of symbols has these symbols. -/
theorem symbols_ofSymbols {scope : Scope} (h : scope.IsGlobal) :
    (ofSymbols scope.symbols).symbols = scope.symbols := by
  have hnodup : ((symbols [] ++ scope.symbols).map Symbol.name).Nodup := h.nodup
  exact symbols_foldl_reset hnodup h.type_ne_void

/-- A name in a store holds a value of its type. -/
theorem exists_lookup_of_mem {store : Store} (hnodup : (store.symbols.map Symbol.name).Nodup)
    {name : String} {type : SymbolType} (h : ⟨name, type⟩ ∈ store.symbols) :
    ∃ v, store.lookup name = some v ∧ v.type = type := by
  induction store with
  | nil => cases h
  | cons entry rest ih =>
    rcases entry with ⟨x, w⟩
    rcases List.nodup_cons.1 hnodup with ⟨hnew, hrest⟩
    rcases List.mem_cons.1 h with heq | hmem
    · cases heq
      exact ⟨w, List.lookup_cons_self, rfl⟩
    · have hname : name ∈ (symbols rest).map Symbol.name := List.mem_map_of_mem hmem
      have hne : name ≠ x := fun heq => hnew (heq ▸ hname)
      rcases ih hrest hmem with ⟨v, hlookup, htype⟩
      exact ⟨v, by rw [List.lookup_cons, beq_false_of_ne hne]; exact hlookup, htype⟩

end Store

/-! ## Expressions -/

/-- The faults of arithmetic. -/
def Fault.IsArithmetic (fault : Fault) : Prop :=
  fault = .overflow ∨ fault = .divisionByZero

section Eval

variable {scope : Scope} {store : Store}

/-- A typed name holds a value of its type. -/
theorem exists_get?_of_typeOf? (hglobal : scope.IsGlobal) (hstore : store.symbols = scope.symbols)
    {x : String} {type : SymbolType} (h : scope.typeOf? x = some type) :
    ∃ v, store.get? x = some v ∧ v.type = type := by
  refine Store.exists_lookup_of_mem ?_ ?_
  · rw [hstore]
    exact hglobal.nodup
  · rw [hstore]
    exact hglobal.typeOf?_eq_some_iff.1 h

/-- An operation has a result, or its arithmetic faults. -/
theorem apply_ok_or_arithmetic (op : ArithOp) (l r : Int16) :
    (∃ n, apply op l r = .ok n) ∨ ∃ fault, apply op l r = .error fault ∧ fault.IsArithmetic := by
  unfold apply
  split
  · exact .inr ⟨_, rfl, .inr rfl⟩
  · split
    · exact .inl ⟨_, rfl⟩
    · exact .inr ⟨_, rfl, .inl rfl⟩

/-- A value for numbers is a number. -/
theorem Value.eq_integer_of_type {v : Value} (h : v.type = .integer) : ∃ n, v = .integer n := by
  cases v with
  | integer n => exact ⟨n, rfl⟩
  | text content => cases h

/-- A value for texts is a text. -/
theorem Value.eq_text_of_type {v : Value} (h : v.type = .string) :
    ∃ content, v = .text content := by
  cases v with
  | integer n => cases h
  | text content => exact ⟨content, rfl⟩

/-- A typed expression has a value of its type, or its arithmetic faults. -/
theorem eval_ok_or_arithmetic (hglobal : scope.IsGlobal)
    (hstore : store.symbols = scope.symbols) {e : Expr} {type : SymbolType}
    (htype : e.type scope = .ok type) :
    (∃ v, eval store e = .ok v ∧ v.type = type) ∨
      ∃ fault, eval store e = .error fault ∧ fault.IsArithmetic := by
  induction e generalizing type with
  | number n =>
    cases htype
    exact .inl ⟨_, rfl, rfl⟩
  | text content =>
    cases htype
    exact .inl ⟨_, rfl, rfl⟩
  | name x =>
    obtain ⟨v, hget, hv⟩ :=
      exists_get?_of_typeOf? hglobal hstore (Scope.require_eq_ok_iff.1 htype)
    exact .inl ⟨v, by simp [eval, hget], hv⟩
  | binary op lhs rhs ihl ihr =>
    rcases Expr.type_binary_eq_ok_iff.1 htype with ⟨rfl, hl, hr⟩
    rcases ihl hl with ⟨v, hv, hvtype⟩ | ⟨fault, hfault, harith⟩
    · rcases v.eq_integer_of_type hvtype with ⟨l, rfl⟩
      rcases ihr hr with ⟨w, hw, hwtype⟩ | ⟨fault, hfault, harith⟩
      · rcases w.eq_integer_of_type hwtype with ⟨r, rfl⟩
        have heval : eval store (.binary op lhs rhs) =
            (apply op l r).bind fun n => .ok (.integer n) := by
          rw [eval, hv, hw]
          rfl
        rcases apply_ok_or_arithmetic op l r with ⟨n, hn⟩ | ⟨fault, hfault, harith⟩
        · exact .inl ⟨.integer n, by rw [heval, hn]; rfl, rfl⟩
        · exact .inr ⟨fault, by rw [heval, hfault]; rfl, harith⟩
      · exact .inr ⟨fault, by rw [eval, hv, hfault]; rfl, harith⟩
    · exact .inr ⟨fault, by rw [eval, hfault]; rfl, harith⟩

/-- An expression for numbers has a number as its value, or its arithmetic faults. -/
theorem evalNumber_ok_or_arithmetic (hglobal : scope.IsGlobal)
    (hstore : store.symbols = scope.symbols) {e : Expr} (htype : e.type scope = .ok .integer) :
    (∃ n, evalNumber store e = .ok n) ∨
      ∃ fault, evalNumber store e = .error fault ∧ fault.IsArithmetic := by
  rcases eval_ok_or_arithmetic hglobal hstore htype with ⟨v, hv, hvtype⟩ | ⟨fault, hfault, harith⟩
  · rcases v.eq_integer_of_type hvtype with ⟨n, rfl⟩
    exact .inl ⟨n, by rw [evalNumber, hv]; rfl⟩
  · exact .inr ⟨fault, by rw [evalNumber, hfault]; rfl, harith⟩

/-- An expression for texts is a text or a name of one, and no number. -/
theorem evalNumber_of_string (hglobal : scope.IsGlobal)
    (hstore : store.symbols = scope.symbols) {e : Expr} (htype : e.type scope = .ok .string) :
    evalNumber store e = .error .nonInteger := by
  have hvalue : ∃ v, eval store e = .ok v ∧ v.type = .string := by
    cases e with
    | number n => cases htype
    | text content => exact ⟨_, rfl, rfl⟩
    | name x =>
      obtain ⟨v, hget, hv⟩ :=
        exists_get?_of_typeOf? hglobal hstore (Scope.require_eq_ok_iff.1 htype)
      exact ⟨v, by simp [eval, hget], hv⟩
    | binary op lhs rhs => cases (Expr.type_binary_eq_ok_iff.1 htype).1
  rcases hvalue with ⟨v, hv, hvtype⟩
  rcases v.eq_text_of_type hvtype with ⟨content, rfl⟩
  rw [evalNumber, hv]
  rfl

/-- Typed items have a text, or the arithmetic of one of them faults. -/
theorem evalItems_ok_or_arithmetic (hglobal : scope.IsGlobal)
    (hstore : store.symbols = scope.symbols) {items : List Expr}
    (htype : ∀ e ∈ items, ∃ type, e.type scope = .ok type) :
    (∃ text, evalItems store items = .ok text) ∨
      ∃ fault, evalItems store items = .error fault ∧ fault.IsArithmetic := by
  induction items with
  | nil => exact .inl ⟨_, rfl⟩
  | cons e rest ih =>
    rcases htype e List.mem_cons_self with ⟨type, he⟩
    rcases eval_ok_or_arithmetic hglobal hstore he with ⟨v, hv, -⟩ | ⟨fault, hfault, harith⟩
    · rcases ih fun d hd => htype d (List.mem_cons_of_mem _ hd) with
        ⟨text, htext⟩ | ⟨fault, hfault, harith⟩
      · exact .inl ⟨v.render ++ text, by rw [evalItems, hv, htext]; rfl⟩
      · exact .inr ⟨fault, by rw [evalItems, hv, hfault]; rfl, harith⟩
    · exact .inr ⟨fault, by rw [evalItems, hfault]; rfl, harith⟩

/-- What fails in its arithmetic only has no other fault. -/
theorem Fault.isArithmetic_of_error {α : Type} {answer : Except Fault α} {fault : Fault}
    (hcases : (∃ v, answer = .ok v) ∨ ∃ f, answer = .error f ∧ f.IsArithmetic)
    (hfault : answer = .error fault) : fault.IsArithmetic := by
  rcases hcases with ⟨v, hv⟩ | ⟨f, hf, harith⟩
  · rw [hfault] at hv
    cases hv
  · rw [hfault] at hf
    cases hf
    exact harith

/-- The value of a typed expression is only missing because of its arithmetic. -/
theorem isArithmetic_of_eval_eq_error (hglobal : scope.IsGlobal)
    (hstore : store.symbols = scope.symbols) {e : Expr} {type : SymbolType}
    (htype : e.type scope = .ok type) {fault : Fault} (h : eval store e = .error fault) :
    fault.IsArithmetic :=
  have hcases := eval_ok_or_arithmetic hglobal hstore htype
  Fault.isArithmetic_of_error (hcases.imp_left fun ⟨v, hv, _⟩ => ⟨v, hv⟩) h

/-- The number of an expression for numbers is only missing because of its arithmetic. -/
theorem isArithmetic_of_evalNumber_eq_error (hglobal : scope.IsGlobal)
    (hstore : store.symbols = scope.symbols) {e : Expr} (htype : e.type scope = .ok .integer)
    {fault : Fault} (h : evalNumber store e = .error fault) : fault.IsArithmetic :=
  Fault.isArithmetic_of_error (evalNumber_ok_or_arithmetic hglobal hstore htype) h

/-- The text of typed items is only missing because of the arithmetic of one of them. -/
theorem isArithmetic_of_evalItems_eq_error (hglobal : scope.IsGlobal)
    (hstore : store.symbols = scope.symbols) {items : List Expr}
    (htype : ∀ e ∈ items, ∃ type, e.type scope = .ok type) {fault : Fault}
    (h : evalItems store items = .error fault) : fault.IsArithmetic :=
  Fault.isArithmetic_of_error (evalItems_ok_or_arithmetic hglobal hstore htype) h

end Eval

end Machine

end LineBasic
