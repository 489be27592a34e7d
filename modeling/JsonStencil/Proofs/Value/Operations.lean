import JsonStencil.Proofs.Value.Serials

/-!
# Operations and serial numbers

Operators, methods and builtins do to values with other serial numbers what they do to the values
themselves. What they give has no functions but those of their operands.
-/

namespace JsonStencil

open Value

variable {f : Nat → Nat} {n : Nat}

/-- Without builtins in the results there is nothing to rename. -/
theorem map_rename_of_returns {ε : Type} {x : Except ε Value} (h : Returns (Settled 0) x) :
    x.map (rename f) = x := by
  cases x with
  | error e => rfl
  | ok v => exact congrArg Except.ok (rename_of_olderThan (by simp) (h v rfl).older)

theorem Returns.settled {ε : Type} {x : Except ε Value} (h : Returns (Settled 0) x) :
    Returns (Settled n) x := h.mono fun _ hv => hv.mono (Nat.zero_le n)

namespace Value

section Access

variable {v w : Value} {name : String} {items : List Value} {position : Option Nat}

theorem settled_item (h : ∀ item ∈ items, item.Settled n) :
    (ofOption (position.bind fun i => items[i]?)).Settled n := by
  refine settled_ofOption fun w hw => ?_
  obtain ⟨i, -, hi⟩ := Option.bind_eq_some_iff.1 hw
  exact h w (List.mem_of_getElem? hi)

theorem item_rename : ofOption (position.bind fun i => (items.map (rename f))[i]?) =
    (ofOption (position.bind fun i => items[i]?)).rename f := by
  cases position with
  | none => rfl
  | some i => rw [Option.bind_some, Option.bind_some, List.getElem?_map, ofOption_map]

theorem settled_getProperty (h : v.Settled n) : Returns (Settled n) (v.getProperty name) := by
  cases v with
  | null => exact .error _
  | bool b => exact .ok settled_null
  | number x => exact .ok settled_null
  | string s =>
    refine .ok ?_
    split
    · exact settled_number _
    · exact settled_null
  | function g =>
    refine .ok ?_
    split
    · exact settled_string _
    · exact settled_null
  | array items =>
    rw [getProperty]
    split
    · exact .ok (settled_number _)
    · exact .ok (settled_item (settled_array_iff.1 h))
  | object entries =>
    exact .ok (settled_ofOption fun w hw => (settled_object_iff.1 h).2 _ (mem_of_get? hw))

theorem getProperty_rename (v : Value) :
    (v.rename f).getProperty name = (v.getProperty name).map (rename f) := by
  cases v with
  | null | bool | number => rfl
  | string s =>
    rw [rename_string, getProperty]
    split <;> rfl
  | function g =>
    rw [rename_function, getProperty, getProperty]
    split <;> rfl
  | array items =>
    rw [rename_array, getProperty, getProperty, List.length_map]
    split
    · rfl
    · rw [item_rename]
      rfl
  | object entries =>
    rw [rename_object, getProperty, Entries.get?_mapValues, ofOption_map]
    rfl

theorem settled_getIndex (h : v.Settled n) : Returns (Settled n) (v.getIndex w) := by
  unfold getIndex
  split
  · exact .ok (settled_item (settled_array_iff.1 h))
  · refine .ok (settled_ofOption fun w hw => ?_)
    obtain ⟨i, -, hi⟩ := Option.bind_eq_some_iff.1 hw
    obtain ⟨c, -, rfl⟩ := Option.map_eq_some_iff.1 hi
    exact settled_string _
  · exact settled_getProperty h

theorem getIndex_rename (v w : Value) :
    (v.rename f).getIndex (w.rename f) = (v.getIndex w).map (rename f) := by
  have hproperty : (v.rename f).getProperty (w.rename f).propertyName =
      (v.getProperty w.propertyName).map (rename f) := by
    rw [propertyName_rename, getProperty_rename]
  cases v with
  | array items =>
    cases w with
    | number x =>
      rw [rename_array, rename_number, getIndex, item_rename]
      rfl
    | _ => exact hproperty
  | string s =>
    cases w with
    | number x =>
      refine (map_rename_of_returns ?_).symm
      exact settled_getIndex (settled_string s)
    | _ => exact hproperty
  | _ => exact hproperty

end Access

end Value

section Operators

theorem settled_unary (op : UnaryOp) (v : Value) : Returns (Settled 0) (op.apply v) := by
  unfold UnaryOp.apply
  split
  · exact .ok (settled_bool _)
  · exact .ok (settled_number _)
  · exact .ok (settled_number _)
  · exact .error _

theorem unary_rename (op : UnaryOp) (v : Value) :
    op.apply (v.rename f) = (op.apply v).map (rename f) := by
  rw [map_rename_of_returns (settled_unary op v)]
  cases op with
  | not | plus => simp [UnaryOp.apply]
  | minus => cases v <;> simp [UnaryOp.apply, kind]

theorem settled_binary (op : BinaryOp) (v w : Value) : Returns (Settled 0) (op.apply v w) := by
  have hadd : Returns (Settled 0) (addValues v w) := by
    unfold addValues
    split
    · exact .ok (settled_number _)
    · exact .ok (settled_string _)
    · exact .ok (settled_string _)
    · exact .error _
  have harithmetic (operation : Arithmetic) : Returns (Settled 0) (operation.apply v w) := by
    unfold Arithmetic.apply
    split
    · exact .ok (settled_number _)
    · exact .error _
  have hcomparison (comparison : Comparison) : Returns (Settled 0) (comparison.apply v w) := by
    unfold Comparison.apply
    split
    · exact .ok (settled_bool _)
    · exact .ok (settled_bool _)
    · exact .error _
  cases op with
  | add => exact hadd
  | sub | mul | div | rem => exact harithmetic _
  | less | lessEqual | greater | greaterEqual => exact hcomparison _
  | equal | notEqual => exact .ok (settled_bool _)

theorem binary_rename (hf : Function.Injective f) (op : BinaryOp) (v w : Value) :
    op.apply (v.rename f) (w.rename f) = (op.apply v w).map (rename f) := by
  rw [map_rename_of_returns (settled_binary op v w)]
  have hadd : addValues (v.rename f) (w.rename f) = addValues v w := by
    cases v <;> cases w <;> simp [addValues, kind, display]
  have harithmetic (operation : Arithmetic) :
      operation.apply (v.rename f) (w.rename f) = operation.apply v w := by
    cases v <;> cases w <;> simp [Arithmetic.apply, kind]
  have hcomparison (comparison : Comparison) :
      comparison.apply (v.rename f) (w.rename f) = comparison.apply v w := by
    cases v <;> cases w <;> simp [Comparison.apply, kind]
  cases op with
  | add => exact hadd
  | sub | mul | div | rem => exact harithmetic _
  | less | lessEqual | greater | greaterEqual => exact hcomparison _
  | equal | notEqual => simp only [BinaryOp.apply, equal_rename hf]

end Operators

namespace Value

section Methods

variable {method : String} {items args : List Value}

@[simp] theorem expectCount_rename (count : Nat) :
    expectCount method (args.map (rename f)) count = expectCount method args count := by
  rw [expectCount, expectCount, List.length_map]

@[simp] theorem stringArgument_rename (v : Value) :
    stringArgument method (v.rename f) = stringArgument method v := by
  cases v <;> simp [stringArgument, kind]

theorem head_rename : ofOption (args.map (rename f)).head? = (ofOption args.head?).rename f := by
  rw [List.head?_map, ofOption_map]

@[simp] theorem onlyString_rename :
    onlyString method (args.map (rename f)) = onlyString method args := by
  rw [onlyString, onlyString, expectCount_rename, head_rename, stringArgument_rename]

theorem settled_splitText (s delimiter : String) :
    (Value.array (splitText s delimiter)).Settled n := by
  refine settled_array_iff.2 fun item hitem => ?_
  unfold splitText at hitem
  split at hitem
  · obtain ⟨c, -, rfl⟩ := List.mem_map.1 hitem
    exact settled_string _
  · obtain ⟨part, -, rfl⟩ := List.mem_map.1 hitem
    exact settled_string _

theorem settled_stringMethod (patterns : PatternLanguage) (s method : String) (args : List Value) :
    Returns (Settled 0) (stringMethod patterns s method args) := by
  unfold stringMethod
  split
  · exact .bind fun _ _ => .ok (settled_string _)
  · exact .bind fun _ _ => .ok (settled_string _)
  · exact .bind fun _ _ => .ok (settled_string _)
  · exact .bind fun _ _ => .ok (settled_bool _)
  · exact .bind fun _ _ => .ok (settled_bool _)
  · exact .bind fun _ _ => .ok (settled_bool _)
  · exact .bind fun _ _ => .ok (settled_splitText s _)
  · exact .bind fun _ _ => .bind fun _ _ => .ok (settled_string _)
  · refine .bind fun _ _ => ?_
    split
    · exact .ok (settled_bool _)
    · exact .error _
  · exact .error _

theorem stringMethod_rename (patterns : PatternLanguage) (s method : String) (args : List Value) :
    stringMethod patterns s method (args.map (rename f)) =
      (stringMethod patterns s method args).map (rename f) := by
  rw [map_rename_of_returns (settled_stringMethod patterns s method args)]
  have hargument (i : Nat) :
      ofOption (args.map (rename f))[i]? = (ofOption args[i]?).rename f := by
    rw [List.getElem?_map, ofOption_map]
  unfold stringMethod
  simp only [expectCount_rename, onlyString_rename, hargument, stringArgument_rename,
    display_rename]

theorem settled_numberMethod (x : Binary64) (method : String) (args : List Value) :
    Returns (Settled 0) (numberMethod x method args) := by
  unfold numberMethod
  split
  · exact .ok (settled_string _)
  · split
    · exact .ok (settled_string _)
    · exact .error _
  · exact .error _

theorem numberMethod_rename (x : Binary64) (method : String) (args : List Value) :
    numberMethod x method (args.map (rename f)) = (numberMethod x method args).map (rename f) := by
  rw [map_rename_of_returns (settled_numberMethod x method args)]
  have hplaces (v : Value) : fixedPlaces? (v.rename f) = fixedPlaces? v := by
    cases v <;> simp [fixedPlaces?]
  cases args with
  | nil => rfl
  | cons arg args =>
    rw [List.map_cons]
    by_cases hmethod : method = "toFixed"
    · subst hmethod
      simp only [numberMethod, hplaces, display_rename]
    · simp [numberMethod, hmethod]

theorem settled_arrayMethod (h : ∀ item ∈ items, item.Settled n) :
    Returns (Settled n) (arrayMethod items method args) := by
  unfold arrayMethod
  split
  · cases args with
    | nil => exact .ok (settled_string _)
    | cons arg args => exact .bind fun _ _ => .ok (settled_string _)
  · exact .bind fun _ _ => .ok (settled_bool _)
  · refine .bind fun _ _ => ?_
    split
    · exact .ok (settled_number _)
    · exact .ok (settled_number _)
  · refine .ok (settled_array_iff.2 fun item hitem => h item ?_)
    exact List.mem_of_mem_take (List.mem_of_mem_drop hitem)
  · refine .bind fun _ _ => .ok (settled_array_iff.2 fun item hitem => ?_)
    exact h item (List.mem_reverse.1 hitem)
  · exact .error _

theorem arrayMethod_rename (hf : Function.Injective f) (items : List Value) (method : String)
    (args : List Value) :
    arrayMethod (items.map (rename f)) method (args.map (rename f)) =
      (arrayMethod items method args).map (rename f) := by
  have hequal : (fun v : Value => v.equal (ofOption (args.map (rename f)).head?)) ∘ rename f =
      fun v => v.equal (ofOption args.head?) := by
    funext v
    rw [Function.comp_apply, head_rename, equal_rename hf]
  have hbound (length default i : Nat) :
      sliceBound length default (args.map (rename f))[i]? = sliceBound length default args[i]? := by
    rw [List.getElem?_map]
    cases args[i]? with
    | none => rfl
    | some v => simp only [Option.map_some, sliceBound, toNumber_rename]
  unfold arrayMethod
  split
  · cases args with
    | nil => simp only [List.map_nil, joinDisplays_rename]; rfl
    | cons arg args =>
      simp only [List.map_cons, stringArgument_rename, joinDisplays_rename]
      cases stringArgument "join" arg <;> rfl
  · rw [expectCount_rename, List.any_map, hequal]
    cases expectCount "includes" args 1 <;> rfl
  · rw [expectCount_rename, List.findIdx?_map, hequal]
    cases expectCount "indexOf" args 1 with
    | error => rfl
    | ok => cases items.findIdx? fun v => v.equal (ofOption args.head?) <;> rfl
  · simp only [hbound, List.length_map, ← List.map_take, ← List.map_drop, ← rename_array]
    rfl
  · rw [expectCount_rename, ← List.map_reverse, ← rename_array]
    cases expectCount "reverse" args 0 <;> rfl
  · rfl

end Methods

section Spread

variable {args : List Value}

theorem numbers_rename (args : List Value) : numbers (args.map (rename f)) = numbers args := by
  rw [numbers, numbers, List.flatMap_map]
  congr 1
  funext v
  cases v with
  | array items =>
    rw [rename_array]
    simp only [List.map_map]
    exact List.map_congr_left fun item _ => toNumber_rename f item
  | _ => rfl

theorem settled_spread (h : ∀ arg ∈ args, arg.Settled n) :
    ∀ item ∈ spread args, item.Settled n := by
  intro item hitem
  obtain ⟨arg, harg, hitem⟩ := List.mem_flatMap.1 hitem
  have hsettled := h arg harg
  cases arg with
  | array items => exact settled_array_iff.1 hsettled item hitem
  | _ =>
    cases List.mem_singleton.1 hitem
    exact hsettled

theorem spread_rename (args : List Value) :
    spread (args.map (rename f)) = (spread args).map (rename f) := by
  rw [spread, spread, List.flatMap_map, List.map_flatMap]
  congr 1
  funext v
  cases v with
  | array items => rw [rename_array]
  | object entries => rw [rename_object, ← rename_object]; rfl
  | _ => rfl

end Spread

end Value

namespace Builtin

variable {b : Builtin} {args : List Value}

theorem settled_single {g : Value → Except Fault Value}
    (hg : ∀ v, v.Settled n → Returns (Settled n) (g v)) (h : ∀ arg ∈ args, arg.Settled n) :
    Returns (Settled n) (single b args g) := by
  unfold single
  split
  · exact hg _ (h _ (List.mem_singleton_self _))
  · exact .error _

theorem single_rename {g : Value → Except Fault Value}
    (hg : ∀ v, g (v.rename f) = (g v).map (rename f)) (args : List Value) :
    single b (args.map (rename f)) g = (single b args g).map (rename f) := by
  match args with
  | [] => rfl
  | [v] => exact hg v
  | _ :: _ :: _ =>
    rw [single, single, List.length_map]
    · rfl
    · simp
    · simp

theorem settled_length (v : Value) : Returns (Settled n) (length v) := by
  unfold length
  split
  · exact .ok (settled_number _)
  · exact .ok (settled_number _)
  · exact .ok (settled_number _)
  · exact .error _

theorem length_rename (v : Value) : length (v.rename f) = (length v).map (rename f) := by
  rw [map_rename_of_returns (settled_length v)]
  cases v <;> simp [length, kind, Entries.mapValues]

theorem settled_keysOf (v : Value) : Returns (Settled n) (keysOf v) := by
  unfold keysOf
  split
  · refine .ok (settled_array_iff.2 fun item hitem => ?_)
    obtain ⟨key, -, rfl⟩ := List.mem_map.1 hitem
    exact settled_string key
  · refine .ok (settled_array_iff.2 fun item hitem => ?_)
    obtain ⟨i, -, rfl⟩ := List.mem_map.1 hitem
    exact settled_string _
  · exact .error _

theorem keysOf_rename (v : Value) : keysOf (v.rename f) = (keysOf v).map (rename f) := by
  rw [map_rename_of_returns (settled_keysOf v)]
  cases v <;> simp [keysOf, kind]

theorem settled_valuesOf {v : Value} (h : v.Settled n) : Returns (Settled n) (valuesOf v) := by
  cases v with
  | object entries =>
    refine .ok (settled_array_iff.2 fun item hitem => ?_)
    obtain ⟨entry, hentry, rfl⟩ := List.mem_map.1 hitem
    exact (settled_object_iff.1 h).2 entry hentry
  | array items => exact .ok h
  | _ => exact .error _

theorem valuesOf_rename (v : Value) : valuesOf (v.rename f) = (valuesOf v).map (rename f) := by
  cases v with
  | object entries =>
    simp [valuesOf, Entries.values, Entries.mapValues, Except.map]
  | array items =>
    rw [rename_array, valuesOf, ← rename_array]
    rfl
  | _ => rfl

theorem settled_concatenate (h : ∀ arg ∈ args, arg.Settled n) : (concatenate args).Settled n := by
  unfold concatenate
  split
  · exact settled_array_iff.2 (settled_spread h)
  · exact settled_string _

theorem concatenate_rename (args : List Value) :
    concatenate (args.map (rename f)) = (concatenate args).rename f := by
  have hdisplay : (args.map (rename f)).map display = args.map display := by
    rw [List.map_map]
    exact List.map_congr_left fun arg _ => display_rename f arg
  match args with
  | .array items :: args =>
    have hspread := spread_rename (f := f) (.array items :: args)
    rw [List.map_cons, rename_array] at hspread ⊢
    rw [concatenate, hspread, concatenate, rename_array]
  | [] => rfl
  | .null :: args | .bool _ :: args | .number _ :: args | .string _ :: args | .object _ :: args
  | .function _ :: args => exact congrArg (fun texts => Value.string (String.join texts)) hdisplay

theorem settled_joinItems (args : List Value) : Returns (Settled n) (joinItems args) := by
  unfold joinItems
  split
  · exact .ok (settled_string _)
  · exact .ok (settled_string _)
  · exact .error _

theorem joinItems_rename (args : List Value) :
    joinItems (args.map (rename f)) = (joinItems args).map (rename f) := by
  rw [map_rename_of_returns (settled_joinItems args)]
  match args with
  | [.array items] => simp [joinItems]
  | [.array items, separator] => simp [joinItems, display_rename]
  | [] => rfl
  | .array _ :: _ :: _ :: _ => simp [joinItems]
  | .null :: _ | .bool _ :: _ | .number _ :: _ | .string _ :: _ | .object _ :: _
  | .function _ :: _ => simp [joinItems]

theorem settled_apply (h : ∀ arg ∈ args, arg.Settled n) : Returns (Settled n) (b.apply args) := by
  cases b with
  | max | min | sum => exact .ok (settled_number _)
  | abs | floor | ceil | round | number =>
    exact settled_single (fun _ _ => .ok (settled_number _)) h
  | upper | lower | trim | string => exact settled_single (fun _ _ => .ok (settled_string _)) h
  | len => exact settled_single (fun v _ => settled_length v) h
  | keys => exact settled_single (fun v _ => settled_keysOf v) h
  | values => exact settled_single (fun _ hv => settled_valuesOf hv) h
  | concat => exact .ok (settled_concatenate h)
  | join => exact settled_joinItems args

theorem apply_rename (b : Builtin) (args : List Value) :
    b.apply (args.map (rename f)) = (b.apply args).map (rename f) := by
  have hnumber (g : Binary64 → Binary64) (v : Value) :
      ofNumber g (v.rename f) = (ofNumber g v).map (rename f) := by
    rw [ofNumber, toNumber_rename, ofNumber]
    rfl
  have htext (g : String → String) (v : Value) :
      ofText g (v.rename f) = (ofText g v).map (rename f) := by
    rw [ofText, display_rename, ofText]
    rfl
  cases b with
  | max | min | sum =>
    simp only [apply, numbers_rename]
    rfl
  | abs | floor | ceil | round | number => exact single_rename (hnumber _) args
  | upper | lower | trim | string => exact single_rename (htext _) args
  | len => exact single_rename length_rename args
  | keys => exact single_rename keysOf_rename args
  | values => exact single_rename valuesOf_rename args
  | concat =>
    rw [apply, concatenate_rename, apply]
    rfl
  | join => exact joinItems_rename args

end Builtin

end JsonStencil
