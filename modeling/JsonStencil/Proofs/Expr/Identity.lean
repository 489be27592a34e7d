import JsonStencil.Proofs.Expr.Failure
import JsonStencil.Proofs.Value.Operations

/-!
# An expression and itself

Where the routines of the host are deterministic, two evaluations of one expression differ in the
serial numbers that builtins take from their look-ups, and in nothing else. So a value equals what
the expression has next unless it holds a builtin that was looked up on the way.
-/

namespace JsonStencil

open Value

/-- From the serial number `n` on nothing about the variables and the routines of the host changes:
whatever the state of the host, what a routine returns is a function of its arguments, of which it
can see no serial numbers but whether two are the same, and the builtins that it returns are among
its arguments or were there before. -/
structure Environment.Deterministic {σ : Type} (env : Environment σ) (n : Nat) : Prop where
  context : ∀ name v, env.context.get? name = some v → v.Settled n
  returns : ∀ serial args m p, n ≤ m → (∀ arg ∈ args, arg.Settled m) →
    Returns (Settled m) (outcome (env.host serial args p))
  renames : ∀ serial args f p q, Function.Injective f → (∀ k < n, f k = k) →
    (∀ arg ∈ args, arg.distinctKeys) →
    outcome (env.host serial (args.map (rename f)) q) =
      (outcome (env.host serial args p)).map (rename f)

theorem HostCall.returns_ofExcept {σ : Type} {P : Value → Prop} {x : Except Fault Value}
    (h : Returns P x) (p : σ) : Returns P (outcome (HostCall.ofExcept x p)) := by
  rw [outcome_ofExcept]
  exact h.mapError

namespace Environment.Deterministic

variable {σ : Type} {env : Environment σ} {n m : Nat} {args : List Value} {f : Nat → Nat}

theorem settled_constant {name : String} {v : Value} (h : constant? name = some v) :
    v.Settled n := by
  unfold constant? at h
  split at h
  · cases h
    exact settled_number _
  · cases h
    exact settled_number _
  · cases h
    exact settled_null
  · cases h

theorem settled_resolve (h : env.Deterministic n) (hm : n ≤ m) {name : String} {v : Value} {k : Nat}
    (hv : env.resolve? name m = some (v, k)) : m ≤ k ∧ v.Settled k := by
  unfold resolve? at hv
  split at hv
  next w hw =>
    cases hv
    exact ⟨le_rfl, (h.context name _ hw).mono hm⟩
  split at hv
  next w hw =>
    cases hv
    exact ⟨le_rfl, settled_constant hw⟩
  · obtain ⟨b, -, hb⟩ := Option.map_eq_some_iff.1 hv
    cases hb
    exact ⟨Nat.le_succ m, (settled_function _).2 (decide_eq_true (Nat.lt_succ_self m))⟩

theorem resolve_later (h : env.Deterministic n) (hm : n ≤ m) (name : String) (d : Nat) :
    env.resolve? name (later n d m) =
      (env.resolve? name m).map (Prod.map (rename (later n d)) (later n d)) := by
  have hold {v : Value} (hv : v.Settled n) : v.rename (later n d) = v :=
    rename_of_olderThan (fun _ hk => later_of_lt hk) hv.older
  have hnext : later n d m + 1 = later n d (m + 1) := by
    rw [later_of_le hm, later_of_le (Nat.le_succ_of_le hm), Nat.add_right_comm]
  unfold resolve?
  cases hc : env.context.get? name with
  | some v => simp [hold (h.context name v hc)]
  | none =>
    cases hconstant : constant? name with
    | some v => simp [hold (settled_constant hconstant)]
    | none => cases Builtin.ofName? name <;> simp [Routine.rename, hnext]

theorem settled_callFunction (h : env.Deterministic n) (hm : n ≤ m) (g : Function)
    (hargs : ∀ arg ∈ args, arg.Settled m) (p : σ) :
    Returns (Settled m) (outcome (env.callFunction g args p)) := by
  obtain ⟨name, routine⟩ := g
  cases routine with
  | host serial => exact h.returns serial args m p hm hargs
  | builtin b serial => exact HostCall.returns_ofExcept (Builtin.settled_apply hargs) p

theorem settled_callMethod (h : env.Deterministic n) (hm : n ≤ m) {v : Value} {name : String}
    (hv : v.Settled m) (hargs : ∀ arg ∈ args, arg.Settled m) (p : σ) :
    Returns (Settled m) (outcome (env.callMethod v name args p)) := by
  cases v with
  | string s => exact HostCall.returns_ofExcept (settled_stringMethod _ s name args).settled p
  | number x => exact HostCall.returns_ofExcept (settled_numberMethod x name args).settled p
  | array items =>
    exact HostCall.returns_ofExcept (settled_arrayMethod (settled_array_iff.1 hv)) p
  | object entries =>
    rw [callMethod]
    cases Entries.get? entries name with
    | none => exact .error _
    | some member =>
      cases member with
      | function g => exact h.settled_callFunction hm g hargs p
      | _ => exact .error _
  | _ => exact .error _

theorem callFunction_rename (h : env.Deterministic n) (hf : Function.Injective f)
    (hold : ∀ k < n, f k = k) (g : Function) (hargs : ∀ arg ∈ args, arg.distinctKeys) (p q : σ) :
    outcome (env.callFunction ⟨g.name, g.routine.rename f⟩ (args.map (rename f)) q) =
      (outcome (env.callFunction g args p)).map (rename f) := by
  obtain ⟨name, routine⟩ := g
  cases routine with
  | host serial => exact h.renames serial args f p q hf hold hargs
  | builtin b serial =>
    simp only [callFunction, Routine.rename, HostCall.outcome_ofExcept, Builtin.apply_rename,
      mapError_map]

theorem callMethod_rename (h : env.Deterministic n) (hf : Function.Injective f)
    (hold : ∀ k < n, f k = k) (v : Value) (name : String)
    (hargs : ∀ arg ∈ args, arg.distinctKeys) (p q : σ) :
    outcome (env.callMethod (v.rename f) name (args.map (rename f)) q) =
      (outcome (env.callMethod v name args p)).map (rename f) := by
  cases v with
  | string s =>
    simp only [rename_string, callMethod, HostCall.outcome_ofExcept, stringMethod_rename,
      mapError_map]
  | number x =>
    simp only [rename_number, callMethod, HostCall.outcome_ofExcept, numberMethod_rename,
      mapError_map]
  | array items =>
    simp only [rename_array, callMethod, HostCall.outcome_ofExcept, arrayMethod_rename hf,
      mapError_map]
  | object entries =>
    rw [rename_object, callMethod, Entries.get?_mapValues, callMethod]
    cases Entries.get? entries name with
    | none => rfl
    | some w =>
      cases w with
      | function g => exact h.callFunction_rename hf hold g hargs p q
      | array items | object entries => simp [kind]; rfl
      | _ => rfl
  | _ => rfl

end Environment.Deterministic

namespace Evaluation

variable {σ α β : Type} {P : Nat → α → Prop} {Q : Nat → β → Prop} {s : World σ}

/-- The computation goes on to a serial number, and what it gives has the property there. -/
def Gives (P : Nat → α → Prop) (x : Evaluation σ α) (s : World σ) : Prop :=
  ∀ a t, x s = .ok a t → s.serial ≤ t.serial ∧ P t.serial a

namespace Gives

theorem pure {a : α} (h : P s.serial a) : Gives P (pure a) s := by
  intro b t hb
  cases hb
  exact ⟨le_rfl, h⟩

theorem fail (fault : Fault) (span : Span) : Gives P (fail fault span) s := nofun

theorem bind {x : Evaluation σ α} {f : α → Evaluation σ β} (hx : Gives P x s)
    (hf : ∀ a t, s.serial ≤ t.serial → P t.serial a → Gives Q (f a) t) : Gives Q (x >>= f) s := by
  intro b u h
  obtain ⟨a, t, ha, hb⟩ := run_bind_eq_ok_iff.1 h
  obtain ⟨ht, hP⟩ := hx a t ha
  obtain ⟨hu, hQ⟩ := hf a t ht hP b u hb
  exact ⟨ht.trans hu, hQ⟩

theorem ofOperation {x : Except Fault α} {span : Span} (h : Returns (P s.serial) x) :
    Gives P (ofOperation span x) s := by
  cases x with
  | ok a => exact .pure (h a rfl)
  | error fault => exact .fail fault span

theorem ofCall {call : HostCall σ α} {span : Span}
    (h : Returns (P s.serial) (outcome (call s.state))) : Gives P (ofCall span call) s := by
  intro a t ha
  unfold Evaluation.ofCall at ha
  cases hcall : call s.state with
  | error e p =>
    rw [hcall] at ha
    cases ha
  | ok b p =>
    rw [hcall] at ha h
    cases ha
    exact ⟨le_rfl, h a rfl⟩

end Gives

end Evaluation

namespace Expr

open Evaluation

variable {σ : Type} {env : Environment σ} {n : Nat} {s : World σ}

theorem settled_lookUp (henv : env.Deterministic n) (hs : n ≤ s.serial) (name : String)
    (span : Span) : Gives Settled (lookUp env name span) s := by
  intro v t h
  rw [lookUp] at h
  cases hfound : env.resolve? name s.serial with
  | none =>
    rw [hfound] at h
    cases h
  | some found =>
    rw [hfound] at h
    cases h
    exact henv.settled_resolve hs hfound

theorem settled_applyCall (henv : env.Deterministic n) (hs : n ≤ s.serial) {callee : Expr}
    {v : Value} {vs : List Value} {span : Span} (hv : v.Settled s.serial)
    (hvs : ∀ arg ∈ vs, arg.Settled s.serial) :
    Gives Settled (applyCall env callee v vs span) s := by
  unfold applyCall
  split
  · exact .ofCall (henv.settled_callMethod hs hv hvs s.state)
  · cases v with
    | function g =>
      refine .ofCall ?_
      rw [HostCall.outcome_named]
      exact (henv.settled_callFunction hs g hvs s.state).mapError
    | _ => exact .fail _ span

mutual

/-- What evaluation gives has distinct keys, and builtins that were looked up before its end. -/
theorem settled_eval (henv : env.Deterministic n) : ∀ (e : Expr) {s : World σ}, n ≤ s.serial →
    Gives Settled (e.eval env) s
  | .null _, _, _ => .pure settled_null
  | .bool b _, _, _ => .pure (settled_bool b)
  | .number x _, _, _ => .pure (settled_number x)
  | .string s _, _, _ => .pure (settled_string s)
  | .identifier name span, _, hs => settled_lookUp henv hs name span
  | .template parts _, _, hs =>
    .bind (settled_evalParts henv parts hs) fun text _ _ _ => .pure (settled_string text)
  | .array items _, _, hs =>
    .bind (settled_evalItems henv items hs) fun _ _ _ hvs => .pure (settled_array_iff.2 hvs)
  | .object entries _, _, hs => by
    refine .bind (settled_evalEntries henv entries hs) fun pairs t _ hpairs => .pure ?_
    refine settled_object_iff.2 ⟨Entries.nodup_keys_ofPairs pairs, fun entry hentry => ?_⟩
    exact hpairs entry (Entries.mem_ofPairs hentry)
  | .member owner property _, _, hs =>
    .bind (settled_eval henv owner hs) fun _ _ _ hv => .ofOperation (settled_getProperty hv)
  | .index owner position _, _, hs =>
    .bind (settled_eval henv owner hs) fun _ _ ht hv =>
      .bind (settled_eval henv position (hs.trans ht)) fun _ _ hu _ =>
        .ofOperation (settled_getIndex (hv.mono hu))
  | .call callee args _, s, hs => by
    rw [eval_call_eq]
    -- of a member that is called only the owner is evaluated
    have htarget : Gives Settled (callee.callTarget.eval env) s := by
      have hcallee : Gives Settled (callee.eval env) s := settled_eval henv callee hs
      cases callee with
      | member owner property place => exact settled_eval henv owner hs
      | _ => exact hcallee
    refine .bind htarget fun v t ht hv => ?_
    have hnt := hs.trans ht
    exact .bind (settled_evalItems henv args hnt) fun vs u hu hvs =>
      settled_applyCall henv (hnt.trans hu) (hv.mono hu) hvs
  | .unary op operand _, _, hs =>
    .bind (settled_eval henv operand hs) fun v _ _ _ => .ofOperation (settled_unary op v).settled
  | .binary op left right _, _, hs =>
    .bind (settled_eval henv left hs) fun v _ ht _ =>
      .bind (settled_eval henv right (hs.trans ht)) fun w _ _ _ =>
        .ofOperation (settled_binary op v w).settled
  | .logical op left right _, _, hs => by
    refine .bind (settled_eval henv left hs) fun v t ht hv => ?_
    split
    · exact .pure hv
    · exact settled_eval henv right (hs.trans ht)
  | .conditional condition onTrue onFalse _, _, hs => by
    refine .bind (settled_eval henv condition hs) fun v t ht _ => ?_
    split
    · exact settled_eval henv onTrue (hs.trans ht)
    · exact settled_eval henv onFalse (hs.trans ht)

theorem settled_evalItems (henv : env.Deterministic n) : ∀ (items : List Expr) {s : World σ},
    n ≤ s.serial →
    Gives (fun k vs => ∀ v ∈ vs, v.Settled k) (evalItems env items) s
  | [], _, _ => .pure nofun
  | e :: items, _, hs =>
    .bind (settled_eval henv e hs) fun _ _ ht hv =>
      .bind (settled_evalItems henv items (hs.trans ht)) fun _ _ hu hvs =>
        .pure (List.forall_mem_cons.2 ⟨hv.mono hu, hvs⟩)

theorem settled_evalParts (henv : env.Deterministic n) : ∀ (parts : List (Part Expr)) {s : World σ},
    n ≤ s.serial → Gives (fun _ _ => True) (evalParts env parts) s
  | [], _, _ => .pure trivial
  | .text _ :: parts, _, hs =>
    .bind (settled_evalParts henv parts hs) fun _ _ _ _ => .pure trivial
  | .hole e :: parts, _, hs =>
    .bind (settled_eval henv e hs) fun _ _ ht _ =>
      .bind (settled_evalParts henv parts (hs.trans ht)) fun _ _ _ _ => .pure trivial

theorem settled_evalEntries (henv : env.Deterministic n) : ∀ (entries : List (ObjectEntry Expr))
    {s : World σ}, n ≤ s.serial →
    Gives (fun k pairs => ∀ pair ∈ pairs, pair.2.Settled k) (evalEntries env entries) s
  | [], _, _ => .pure nofun
  | ⟨.named _, e, _⟩ :: entries, _, hs =>
    .bind (settled_eval henv e hs) fun _ _ ht hv =>
      .bind (settled_evalEntries henv entries (hs.trans ht)) fun _ _ hu hpairs =>
        .pure (List.forall_mem_cons.2 ⟨hv.mono hu, hpairs⟩)
  | ⟨.computed key, e, _⟩ :: entries, _, hs =>
    .bind (settled_eval henv key hs) fun _ _ hj _ =>
      .bind (settled_eval henv e (hs.trans hj)) fun _ _ ht hv =>
        .bind (settled_evalEntries henv entries ((hs.trans hj).trans ht)) fun _ _ hu hpairs =>
          .pure (List.forall_mem_cons.2 ⟨hv.mono hu, hpairs⟩)

end

end Expr

namespace Evaluation

variable {σ α β : Type} {n d : Nat} {g : α → α} {g' : β → β} {s : World σ}

/-- What a run gives, with the serial number that it leaves, whatever it leaves of the host. -/
def track : EStateM.Result EvalError (World σ) α → Except EvalError (α × Nat)
  | .ok a t => .ok (a, t.serial)
  | .error err _ => .error err

theorem outcome_eq_map_track (r : EStateM.Result EvalError (World σ) α) :
    outcome r = (track r).map Prod.fst := by
  cases r <;> rfl

theorem track_eq_error_iff {r : EStateM.Result EvalError (World σ) α} {err : EvalError} :
    track r = .error err ↔ ∃ t, r = .error err t := by
  cases r <;> simp [track]

theorem track_eq_ok_iff {r : EStateM.Result EvalError (World σ) α} {a : α} {k : Nat} :
    track r = .ok (a, k) ↔ ∃ p, r = .ok a ⟨k, p⟩ := by
  cases r with
  | error err t => simp [track]
  | ok b t =>
    obtain ⟨serial, q⟩ := t
    simp [track]

theorem track_ofCall (span : Span) (call : HostCall σ α) (s : World σ) :
    track (ofCall span call s) =
      ((outcome (call s.state)).map (·, s.serial)).mapError (·.locate span) := by
  unfold ofCall
  cases call s.state <;> rfl

/-- Where the serial numbers from `n` on are moved on by `d`, the second computation gives what the
first one gives where they are not, moved likewise, in every state of the host. -/
def Moves (n d : Nat) (g : α → α) (x y : Evaluation σ α) (s : World σ) : Prop :=
  ∀ p, track (y ⟨later n d s.serial, p⟩) = (track (x s)).map (Prod.map g (later n d))

namespace Moves

theorem pure {a b : α} (h : g a = b) : Moves n d g (pure a) (pure b) s := by
  subst h
  exact fun _ => rfl

theorem fail (fault : Fault) (span : Span) : Moves n d g (fail fault span) (fail fault span) s :=
  fun _ => rfl

theorem bind {x y : Evaluation σ α} {h h' : α → Evaluation σ β} (hx : Moves n d g x y s)
    (hh : ∀ a t, x s = .ok a t → Moves n d g' (h a) (h' (g a)) t) :
    Moves n d g' (x >>= h) (y >>= h') s := by
  intro p
  have hxp := hx p
  cases hs : x s with
  | error err t =>
    rw [hs] at hxp
    obtain ⟨u, hy⟩ := track_eq_error_iff.1 hxp
    rw [run_bind_of_error hy, run_bind_of_error hs]
    rfl
  | ok a t =>
    rw [hs] at hxp
    obtain ⟨q, hy⟩ := track_eq_ok_iff.1 hxp
    rw [run_bind_of_ok hy, run_bind_of_ok hs]
    exact hh a t hs q

theorem ofOperation {x : Except Fault α} (span : Span) :
    Moves n d g (ofOperation span x) (ofOperation span (x.map g)) s := by
  cases x with
  | ok a => exact .pure rfl
  | error fault => exact .fail fault span

theorem ofCall {call call' : HostCall σ α} (span : Span)
    (h : ∀ p, outcome (call' p) = (outcome (call s.state)).map g) :
    Moves n d g (ofCall span call) (ofCall span call') s := by
  intro p
  rw [track_ofCall, track_ofCall, h p]
  cases outcome (call s.state) <;> rfl

end Moves

end Evaluation

namespace Expr

open Evaluation

variable {σ : Type} {env : Environment σ} {n d : Nat} {s t : World σ}

theorem moves_lookUp (henv : env.Deterministic n) (hs : n ≤ s.serial) (name : String)
    (span : Span) :
    Moves n d (rename (later n d)) (lookUp env name span) (lookUp env name span) s := by
  intro p
  rw [lookUp, lookUp, henv.resolve_later hs]
  cases env.resolve? name s.serial <;> rfl

theorem moves_applyCall (henv : env.Deterministic n) {callee : Expr} {v : Value} {vs : List Value}
    {span : Span} (hvs : ∀ arg ∈ vs, arg.Settled s.serial) :
    Moves n d (rename (later n d)) (applyCall env callee v vs span)
      (applyCall env callee (v.rename (later n d)) (vs.map (rename (later n d))) span) s := by
  have hf := later_injective n d
  have hold : ∀ k < n, later n d k = k := fun _ hk => later_of_lt hk
  have hkeys : ∀ arg ∈ vs, arg.distinctKeys := fun arg harg => (hvs arg harg).keys
  unfold applyCall
  split
  · exact .ofCall span fun p => henv.callMethod_rename hf hold v _ hkeys s.state p
  · cases v with
    | function g =>
      refine .ofCall span fun p => ?_
      rw [HostCall.outcome_named, HostCall.outcome_named,
        henv.callFunction_rename hf hold g hkeys s.state p, mapError_map]
    | array items | object entries =>
      simp only [rename_array, rename_object, callValue, kind]
      exact .fail _ span
    | _ => exact .fail _ span

mutual

/-- Evaluation that starts from a later serial number gives what it gives from the first one, with
later numbers. -/
theorem moves_eval (henv : env.Deterministic n) : ∀ (e : Expr) {s : World σ}, n ≤ s.serial →
    Moves n d (rename (later n d)) (e.eval env) (e.eval env) s
  | .null _, _, _ | .bool _ _, _, _ | .number _ _, _, _ | .string _ _, _, _ => .pure rfl
  | .identifier name span, _, hs => moves_lookUp henv hs name span
  | .template parts _, _, hs => .bind (moves_evalParts henv parts hs) fun _ _ _ => .pure rfl
  | .array items _, _, hs =>
    .bind (moves_evalItems henv items hs) fun vs _ _ => .pure (rename_array _ vs)
  | .object entries _, _, hs => by
    refine .bind (moves_evalEntries henv entries hs) fun pairs t _ => .pure ?_
    rw [rename_object, Entries.ofPairs_mapValues]
  | .member owner property span, _, hs => by
    refine .bind (moves_eval henv owner hs) fun v t _ => ?_
    rw [getProperty_rename]
    exact .ofOperation span
  | .index owner position span, _, hs => by
    refine .bind (moves_eval henv owner hs) fun v t hv => ?_
    obtain ⟨ht, -⟩ := settled_eval henv owner hs v t hv
    refine .bind (moves_eval henv position (hs.trans ht)) fun w u _ => ?_
    rw [getIndex_rename]
    exact .ofOperation span
  | .call callee args span, s, hs => by
    rw [eval_call_eq]
    have htarget : Moves n d (rename (later n d)) (callee.callTarget.eval env)
        (callee.callTarget.eval env) s := by
      have hcallee : Moves n d (rename (later n d)) (callee.eval env) (callee.eval env) s :=
        moves_eval henv callee hs
      cases callee with
      | member owner property place => exact moves_eval henv owner hs
      | _ => exact hcallee
    refine .bind htarget fun v t hv => ?_
    have ht := hs.trans (settled_eval henv callee.callTarget hs v t hv).1
    refine .bind (moves_evalItems henv args ht) fun vs u hvs => ?_
    exact moves_applyCall henv (settled_evalItems henv args ht vs u hvs).2
  | .unary op operand span, _, hs => by
    refine .bind (moves_eval henv operand hs) fun v t _ => ?_
    rw [unary_rename]
    exact .ofOperation span
  | .binary op left right span, _, hs => by
    refine .bind (moves_eval henv left hs) fun v t hv => ?_
    obtain ⟨ht, -⟩ := settled_eval henv left hs v t hv
    refine .bind (moves_eval henv right (hs.trans ht)) fun w u _ => ?_
    rw [binary_rename (later_injective n d)]
    exact .ofOperation span
  | .logical op left right _, _, hs => by
    refine .bind (moves_eval henv left hs) fun v t hv => ?_
    obtain ⟨ht, -⟩ := settled_eval henv left hs v t hv
    have hstops : stops op (v.rename (later n d)) = stops op v := by cases op <;> simp [stops]
    rw [hstops]
    split
    · exact .pure rfl
    · exact moves_eval henv right (hs.trans ht)
  | .conditional condition onTrue onFalse _, _, hs => by
    refine .bind (moves_eval henv condition hs) fun v t hv => ?_
    obtain ⟨ht, -⟩ := settled_eval henv condition hs v t hv
    rw [isTruthy_rename]
    split
    · exact moves_eval henv onTrue (hs.trans ht)
    · exact moves_eval henv onFalse (hs.trans ht)

theorem moves_evalItems (henv : env.Deterministic n) : ∀ (items : List Expr) {s : World σ},
    n ≤ s.serial →
    Moves n d (List.map (rename (later n d))) (evalItems env items) (evalItems env items) s
  | [], _, _ => .pure rfl
  | e :: items, _, hs => by
    refine .bind (moves_eval henv e hs) fun v t hv => ?_
    obtain ⟨ht, -⟩ := settled_eval henv e hs v t hv
    exact .bind (moves_evalItems henv items (hs.trans ht)) fun _ _ _ => .pure rfl

theorem moves_evalParts (henv : env.Deterministic n) : ∀ (parts : List (Part Expr)) {s : World σ},
    n ≤ s.serial → Moves n d id (evalParts env parts) (evalParts env parts) s
  | [], _, _ => .pure rfl
  | .text _ :: parts, _, hs => .bind (moves_evalParts henv parts hs) fun _ _ _ => .pure rfl
  | .hole e :: parts, _, hs => by
    refine .bind (moves_eval henv e hs) fun v t hv => ?_
    obtain ⟨ht, -⟩ := settled_eval henv e hs v t hv
    rw [display_rename]
    exact .bind (moves_evalParts henv parts (hs.trans ht)) fun _ _ _ => .pure rfl

theorem moves_evalEntries (henv : env.Deterministic n) : ∀ (entries : List (ObjectEntry Expr))
    {s : World σ}, n ≤ s.serial →
    Moves n d (Entries.mapValues (rename (later n d))) (evalEntries env entries)
      (evalEntries env entries) s
  | [], _, _ => .pure rfl
  | ⟨.named name, e, _⟩ :: entries, _, hs => by
    refine .bind (moves_eval henv e hs) fun v t hv => ?_
    obtain ⟨ht, -⟩ := settled_eval henv e hs v t hv
    exact .bind (moves_evalEntries henv entries (hs.trans ht)) fun _ _ _ => .pure rfl
  | ⟨.computed key, e, _⟩ :: entries, _, hs => by
    refine .bind (moves_eval henv key hs) fun w r hw => ?_
    obtain ⟨hr, -⟩ := settled_eval henv key hs w r hw
    rw [propertyName_rename]
    refine .bind (moves_eval henv e (hs.trans hr)) fun v t hv => ?_
    obtain ⟨ht, -⟩ := settled_eval henv e (hs.trans hr) v t hv
    exact .bind (moves_evalEntries henv entries ((hs.trans hr).trans ht)) fun _ _ _ => .pure rfl

end

/-- Where routines are deterministic, evaluations from any two worlds have one outcome, when
builtins are known by their names. -/
theorem outcome_eval (henv : env.Deterministic n) (e : Expr) (hs : n ≤ s.serial)
    (ht : n ≤ t.serial) :
    (outcome (e.eval env s)).map byName = (outcome (e.eval env t)).map byName := by
  have hle {s t : World σ} (hs : n ≤ s.serial) (hst : s.serial ≤ t.serial) :
      (outcome (e.eval env s)).map byName = (outcome (e.eval env t)).map byName := by
    have hmoves := moves_eval (d := t.serial - s.serial) henv e hs t.state
    have hstart : later n (t.serial - s.serial) s.serial = t.serial := by
      rw [later_of_le hs]
      omega
    rw [hstart] at hmoves
    rw [outcome_eq_map_track, outcome_eq_map_track, hmoves]
    cases track (e.eval env s) with
    | error err => rfl
    | ok r => exact congrArg Except.ok (byName_rename (later n (t.serial - s.serial)) r.1).symm
  rcases le_total s.serial t.serial with hst | hst
  · exact hle hs hst
  · exact (hle ht hst).symm

theorem eval_of_erase {e e' : Expr} (h : e'.erase = e.erase) {v : Value}
    (hv : e.eval env s = .ok v t) : e'.eval env s = .ok v t := by
  have hcause : cause (e'.eval env) s = cause (e.eval env) s := by
    rw [← cause_eval_erase env e', h, cause_eval_erase env e]
  simp only [cause, EStateM.adaptExcept, hv] at hcause
  cases hv' : e'.eval env s with
  | error err u =>
    rw [hv'] at hcause
    cases hcause
  | ok w u =>
    rw [hv'] at hcause
    cases hcause
    rfl

/-- What an expression has next time equals its value unless a builtin in the value was looked up on
the way. -/
theorem eval_again (henv : env.Deterministic s.serial) {e : Expr} {v : Value}
    (hv : e.eval env s = .ok v t) (hnan : v.nanFree) :
    ∃ w u, e.eval env t = .ok w u ∧ v.equal w = v.olderThan s.serial := by
  obtain ⟨ht, hsettled⟩ := settled_eval henv e le_rfl v t hv
  -- the second evaluation starts where the first one ended
  have hstart : later s.serial (t.serial - s.serial) s.serial = t.serial := by
    rw [later_of_le le_rfl]
    omega
  have hmoves := moves_eval (d := t.serial - s.serial) henv e le_rfl t.state
  rw [hstart, hv] at hmoves
  obtain ⟨q, hw⟩ := track_eq_ok_iff.1 hmoves
  refine ⟨_, _, hw, ?_⟩
  rw [Bool.eq_iff_iff, equal_rename_later_iff hsettled.keys hnan]
  -- when no number was taken, all builtins in the value were there before
  refine or_iff_right_of_imp fun hd => ?_
  have heq : t.serial = s.serial := by omega
  exact heq ▸ hsettled.older

/-- An expression equals itself, and is found in an array of itself, just when its value holds no
builtin that was looked up on the way. The copies may stand at other places. -/
theorem eval_equal_self (henv : env.Deterministic s.serial) {e e' e'' : Expr}
    (h' : e'.erase = e.erase) (h'' : e''.erase = e.erase) {v : Value}
    (hv : e.eval env s = .ok v t) (hnan : v.nanFree) (span span' span'' : Span) :
    (∃ u, (Expr.binary .equal e' e'' span).eval env s = .ok (.bool (v.olderThan s.serial)) u) ∧
      ∃ u, (Expr.call (.member (.array [e'] span) "includes" span') [e''] span'').eval env s =
        .ok (.bool (v.olderThan s.serial)) u := by
  obtain ⟨w, u, hw, hequal⟩ := eval_again henv hv hnan
  have hfirst := eval_of_erase h' hv
  have hsecond := eval_of_erase h'' hw
  rw [← hequal]
  refine ⟨⟨u, (run_bind_of_ok hfirst).trans ((run_bind_of_ok hsecond).trans rfl)⟩, u, ?_⟩
  have harray : (Expr.array [e'] span).eval env s = .ok (.array [v]) t :=
    run_bind_of_ok ((run_bind_of_ok hfirst).trans rfl)
  have hargs : evalItems env [e''] t = .ok [w] u := (run_bind_of_ok hsecond).trans rfl
  have hincludes : env.callMethod (.array [v]) "includes" [w] = pure (.bool (v.equal w)) := by
    rw [← Bool.or_false (v.equal w)]
    rfl
  refine (run_bind_of_ok harray).trans ((run_bind_of_ok hargs).trans ?_)
  rw [hincludes]
  rfl

/-- A variable can stand for a function of the host that returns its first argument and counts its
calls. The function equals itself, and a builtin that it returns does not. -/
theorem eval_equal_self_first :
    let line : Span := ⟨1, 1, 0, 14⟩
    let context : Context := ⟨[("f", .function ⟨"f", .host 0⟩)]⟩
    let env : Environment Nat :=
      ⟨context, fun _ args calls => .ok (ofOption args.head?) (calls + 1), fun p => .error p⟩
    let f : Expr := .identifier "f" line
    let kept : Expr := .call (.identifier "values" line) [.object [⟨.named "a", f, line⟩] line] line
    let found : Expr := .object [⟨.named "a", .call f [.identifier "max" line] line, line⟩] line
    env.Deterministic 0 ∧
      (∃ v t, kept.eval env ⟨0, 0⟩ = .ok v t ∧ v.nanFree ∧ v.olderThan 0) ∧
      (∃ u, (Expr.binary .equal kept kept line).eval env ⟨0, 0⟩ = .ok (.bool true) u) ∧
      (∃ v t, found.eval env ⟨0, 0⟩ = .ok v t ∧ v.nanFree ∧ v.olderThan 0 = false) ∧
      ∃ u, (Expr.binary .equal found found line).eval env ⟨0, 0⟩ = .ok (.bool false) u := by
  intro line context env f kept found
  have henv : env.Deterministic 0 := by
    refine ⟨fun name v hv => ?_, fun serial args m p _ hargs => ?_,
      fun serial args f p q _ _ _ => ?_⟩
    · have hv' : v = .function ⟨"f", .host 0⟩ := by
        simp only [Context.get?, env, context, Entries.get?_cons] at hv
        split at hv
        · exact (Option.some.inj hv).symm
        · cases hv
      rw [hv']
      exact ⟨rfl, rfl⟩
    · exact .ok (settled_ofOption fun w hw => hargs w (List.mem_of_head? hw))
    · exact congrArg Except.ok head_rename
  have hkept : kept.eval env ⟨0, 0⟩ = .ok (.array [.function ⟨"f", .host 0⟩]) ⟨1, 0⟩ := rfl
  have hfound : found.eval env ⟨0, 0⟩ =
      .ok (.object [("a", .function ⟨"max", .builtin .max 0⟩)]) ⟨1, 1⟩ := rfl
  refine ⟨henv, ⟨_, _, hkept, rfl, rfl⟩, ?_, ⟨_, _, hfound, rfl, rfl⟩, ?_⟩
  · exact (eval_equal_self (s := ⟨0, 0⟩) henv rfl rfl hkept rfl line line line).1
  · exact (eval_equal_self (s := ⟨0, 0⟩) henv rfl rfl hfound rfl line line line).1

/-- Not every expression with a value equals itself: the name of a builtin does not. -/
theorem not_eval_equal_self :
    let line : Span := ⟨1, 1, 0, 3⟩
    let env : Environment Unit := .ofContext (fun p => .error p) .empty
    let e : Expr := .identifier "max" line
    env.Deterministic 0 ∧ ¬ ∀ v t, e.eval env ⟨0, ()⟩ = .ok v t → v.nanFree →
      (∃ u, (Expr.binary .equal e e line).eval env ⟨0, ()⟩ = .ok (.bool true) u) ∧
        ∃ u, (Expr.call (.member (.array [e] line) "includes" line) [e] line).eval env ⟨0, ()⟩ =
          .ok (.bool true) u := by
  intro line env e
  have henv : env.Deterministic 0 :=
    ⟨nofun, fun _ _ _ _ _ _ => .error _, fun _ _ _ _ _ _ _ _ => rfl⟩
  have hmax : e.eval env ⟨0, ()⟩ = .ok (.function ⟨"max", .builtin .max 0⟩) ⟨1, ()⟩ := rfl
  have hfalse : (Expr.binary .equal e e line).eval env ⟨0, ()⟩ = .ok (.bool false) ⟨2, ()⟩ := rfl
  refine ⟨henv, fun h => ?_⟩
  obtain ⟨⟨u, htrue⟩, -⟩ := h _ _ hmax rfl
  rw [hfalse] at htrue
  cases htrue

end Expr

end JsonStencil
