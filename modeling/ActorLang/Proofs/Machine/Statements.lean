import ActorLang.Proofs.Machine.Application
import ActorLang.Proofs.Machine.Matching
import ActorLang.Proofs.Machine.Steps

/-!
# Statements that agree

`Aligned` relates two statements that read the same variables when they are executed, each in its
environment; what they contain may differ.  Aligned statements agree, and `Follow` says all that can
come next of them.  Every statement is aligned with itself.  So if it has to wait, it has done
nothing but add variables.
-/

namespace ActorLang

open Kernel (Ident Operand Stmt BinaryPrim)
open List

variable {α β : Type} {op : BinaryPrim} {args args' : List Operand} {P : Leaf → Prop}
  {label : Option Feature} {r : Except Fault α} {C : Definition → Prop} {V : View} {M : Mode} {g : Stage}

namespace Exec

section Create

variable {env env' : Env}

/-- The result is no fault that has to do with names or jumps. -/
def Ordinary {α : Type} (r : Except Fault α) : Prop := ∀ f, r = .error f → f.isOrdinary = true

@[simp] theorem ordinary_ok (a : α) :
  Ordinary (.ok a)
  := nofun

@[simp] theorem ordinary_error_iff {f : Fault} :
  Ordinary (.error f : Except Fault α) ↔ f.isOrdinary = true
  := ⟨fun h => h f rfl, fun h _ hf => by cases hf; exact h⟩

@[simp] theorem Ordinary.map (h : Ordinary r) (g : α → β) :
  Ordinary (g <$> r)
  := by
  cases r with
  | ok => exact ordinary_ok _
  | error f => exact ordinary_error_iff.mpr (h f rfl)

@[simp] theorem ordinary_integer {fits : Int → Bool} {x y : Int} :
  Ordinary (Primitive.integer op fits x y)
  := by
  fun_cases Primitive.integer op fits x y <;> simp [Fault.isOrdinary]

@[simp] theorem ordinary_float {f : BinaryFormat} {x y : Binary f} :
  Ordinary (Primitive.float op x y)
  := by
  fun_cases Primitive.float op x y <;> simp [Fault.isOrdinary]

theorem ordinary_arith (op : BinaryPrim) (a b : Datum) :
  Ordinary (arith op a b)
  := by
  fun_cases arith op a b with
  | case2 => simp [Fault.isOrdinary]
  | case1 x y => fun_cases Primitive.arithLiterals op x y <;> simp [Fault.isOrdinary]

theorem ordinary_compareData (op : BinaryPrim) (a b : Datum) :
  Ordinary (compareData op a b)
  := by
  fun_cases compareData op a b with
  | case2 => simp [Fault.isOrdinary]
  | case1 x y => fun_cases Primitive.compareLiterals op x y <;> simp [Fault.isOrdinary]

theorem ordinary_negate (a : Datum) :
  Ordinary (negate a)
  := by
  fun_cases negate a <;> simp [Fault.isOrdinary]

theorem agree_liftFault (h : Ordinary r) :
  Agree g M V C (liftFault r) (liftFault r) (Equal V)
  := by
  cases r with
  | ok => exact agree_pure ⟨rfl, rfl, trivial⟩
  | error f => exact agree_fault (h f rfl)

theorem agree_binary {left right : Value} (hl : left.Fits M V) (hr : right.Fits M V) :
  Agree .looks M V C (binary op left right) (binary op left right) (Equal V)
  := by
  have hequals (f : Bool → Literal) := agree_decided (C := C)
    (fun hvalid _ hs hvars _ =>
      Store.unbound_of_equals hs (hl.within hvalid _ hvars) (hr.within hvalid _ hvars))
    fun b => agree_pure (R := Equal V) (a := f b) ⟨rfl, rfl, trivial⟩
  have hboth {x : Datum → Datum → Exec Literal} (hx : ∀ a b, Agree .looks M V C (x a b) (x a b) (Equal V)) :
      Agree .looks M V C (do x (← determined left) (← determined right))
        (do x (← determined left) (← determined right)) (Equal V) := by
    apply (agree_determined hl).next
    intro a _
    apply (agree_determined hr).next
    intro b _
    exact hx a b
  have hcompare := hboth fun a b => (agree_liftFault (ordinary_compareData op a b)).next fun r _ =>
    agree_pure (a := Literal.bool r) ⟨rfl, rfl, trivial⟩
  have harith := hboth fun a b => agree_liftFault (ordinary_arith op a b)
  cases op with
  | eq => exact hequals .bool
  | ne => exact hequals fun b => .bool !b
  | lt | gt | le | ge => exact hcompare
  | add | sub | mult | div | mod => exact harith

theorem agree_fields {args args' : List (Operand × Operand)}
    (h : Forall₂ (fun f g => SameOperand V env env' f.1 g.1 ∧ SameOperand V env env' f.2 g.2) args args') :
  Agree .looks M V C (fields env args) (fields env' args') (Still V fun fields => ∀ f ∈ fields, f.2.Fits M V)
  := by
  induction h with
  | nil => exact agree_pure ⟨rfl, rfl, by simp⟩
  | cons hfield _ ih =>
    apply (agree_feature hfield.1).next
    intro f _
    apply (agree_leaf hfield.2).next
    intro v hv
    apply ih.next
    intro _ hfields
    exact agree_pure ⟨rfl, rfl, forall_mem_cons.mpr ⟨hv, hfields⟩⟩

theorem agree_leaves (h : Forall₂ (SameOperand V env env') args args') :
  Agree .looks M V C (leaves env args) (leaves env' args') (Still V fun values => ∀ v ∈ values, v.Fits M V)
  := by
  induction h with
  | nil => exact agree_pure ⟨rfl, rfl, by simp⟩
  | cons harg _ ih =>
    apply (agree_leaf harg).next
    intro v hv
    apply ih.next
    intro _ hvalues
    exact agree_pure ⟨rfl, rfl, forall_mem_cons.mpr ⟨hv, hvalues⟩⟩

theorem agree_capture {names : List Ident} (h : ∀ x ∈ names, SameVar V env env' x x) :
  Agree .looks M V C (capture env names) (capture env' names)
    (Still V fun captured => captured.map (·.1) = names ∧ ∀ b ∈ captured, V.vars b.2)
  := by
  induction names with
  | nil => exact agree_pure ⟨rfl, rfl, by simp⟩
  | cons _ _ ih =>
    obtain ⟨hname, hrest⟩ := forall_mem_cons.mp h
    apply (agree_lookup hname).next
    intro v hv
    apply (ih hrest).next
    rintro _ ⟨hnames, hcaptured⟩
    exact agree_pure ⟨rfl, rfl, by rw [map_cons, hnames], forall_mem_cons.mpr ⟨hv, hcaptured⟩⟩

theorem agree_newClosure {params : List Ident} {body : Stmt}
    (h : ∀ x ∈ Stmt.captured params body, SameVar V env env' x x)
    (hC : C ⟨params, body, Stmt.captured params body⟩) :
  Agree .looks M V C (newClosure env params body) (newClosure env' params body) (Still V (Closure.Tame V C))
  := by
  apply (agree_capture h).next
  rintro _ ⟨hnames, hcaptured⟩
  refine agree_pure ⟨rfl, rfl, ?_, hcaptured⟩
  rw [Closure.definition, hnames]
  exact hC

theorem agree_bindClosure {target : VarId} {c : Closure} {kind : ProcId → Scalar}
    (htarget : V.vars target) (hc : c.Tame V C)
    (hkind : ∀ (W : View) id, W.procs id → (kind id).In W ∧ (kind id).Fits M) :
  Agree .acts M V C (bindClosure target c kind) (bindClosure target c kind) Anyhow
  := by
  apply (agree_onStore (.newClosure c) (fun _ => rfl) ⟨trivial, fun _ s hs b hb => hs _ (hc.env b hb)⟩
    (fun _ => allows_acts _ _) fun s hs => hs.newClosure hc).bind
  rintro W hW id _ ⟨rfl, hid⟩
  obtain ⟨hin, hfits⟩ := hkind W id hid
  exact (agree_bind (hW.vars target htarget) (.scalar hin hfits)).anyhow

theorem agree_newVars (names : List Ident) :
  Agree .looks M V C (newVars names) (newVars names)
    (Same fun W vars => vars.map (·.1) = names ∧ ∀ b ∈ vars, W.vars b.2)
  := by
  induction names generalizing V with
  | nil => exact agree_pure ⟨rfl, by simp⟩
  | cons _ _ ih =>
    apply agree_newVar.bind
    rintro W - v _ ⟨rfl, hv⟩
    apply ih.bind
    rintro _ hW' vars _ ⟨rfl, hnames, hvars⟩
    exact agree_pure ⟨rfl, by rw [map_cons, hnames], forall_mem_cons.mpr ⟨hW'.vars v hv, hvars⟩⟩

end Create

section Statement

variable {env env' : Env} {s s' : Stmt}

/-- The statements are of one form, and the names that they read when they are executed correspond.  The
procedures that they create are the same and obey the condition. -/
inductive Congruent (N : Pairing) (C : Definition → Prop) : Stmt → Stmt → Prop where
  | scope (names : List Ident) (body body' : Stmt) :
      Congruent N C (.scope names body) (.scope names body')
  | seq (stmts stmts' : List Stmt) : Congruent N C (.seq stmts) (.seq stmts')
  | skip : Congruent N C .skip .skip
  | bind {arg arg' x y} (harg : OperandTwin N arg arg') (htarget : N x y) :
      Congruent N C (.bind arg x) (.bind arg' y)
  | binary (op : BinaryPrim) {left left' right right' x y} (hleft : OperandTwin N left left')
      (hright : OperandTwin N right right') (htarget : N x y) :
      Congruent N C (.binary op left right x) (.binary op left' right' y)
  | negate {arg arg' x y} (harg : OperandTwin N arg arg') (htarget : N x y) :
      Congruent N C (.negate arg x) (.negate arg' y)
  | get {cell cell' x y} (hcell : OperandTwin N cell cell') (htarget : N x y) :
      Congruent N C (.get cell x) (.get cell' y)
  | set {cell cell' value value'} (hcell : OperandTwin N cell cell')
      (hvalue : OperandTwin N value value') : Congruent N C (.set cell value) (.set cell' value')
  | select {record record' f f' x y} (hrecord : OperandTwin N record record')
      (hf : OperandTwin N f f') (htarget : N x y) :
      Congruent N C (.select record f x) (.select record' f' y)
  | selectApply {record record' path path' args args'} (hrecord : OperandTwin N record record')
      (hpath : Forall₂ (OperandTwin N) path path') (hargs : Forall₂ (OperandTwin N) args args') :
      Congruent N C (.selectApply record path args) (.selectApply record' path' args')
  | createRecord {label label' fields fields' x y}
      (hlabel : Option.Rel (OperandTwin N) label label')
      (hfields : Forall₂ (fun f g => OperandTwin N f.1 g.1 ∧ OperandTwin N f.2 g.2) fields fields')
      (htarget : N x y) :
      Congruent N C (.createRecord label fields x) (.createRecord label' fields' y)
  | createTuple {label label' values values' x y}
      (hlabel : Option.Rel (OperandTwin N) label label')
      (hvalues : Forall₂ (OperandTwin N) values values') (htarget : N x y) :
      Congruent N C (.createTuple label values x) (.createTuple label' values' y)
  | createProc {params body x y} (hcaptured : ∀ z ∈ Stmt.captured params body, N z z)
      (hC : C ⟨params, body, Stmt.captured params body⟩) (htarget : N x y) :
      Congruent N C (.createProc params body x) (.createProc params body y)
  | createActor {params body x y} (hcaptured : ∀ z ∈ Stmt.captured params body, N z z)
      (hC : C ⟨params, body, Stmt.captured params body⟩) (htarget : N x y) :
      Congruent N C (.createActor params body x) (.createActor params body y)
  | apply {proc proc' args args'} (hproc : OperandTwin N proc proc')
      (hargs : Forall₂ (OperandTwin N) args args') :
      Congruent N C (.apply proc args) (.apply proc' args')
  | ifElse {cond cond'} (hcond : OperandTwin N cond cond') (yes no yes' no' : Stmt) :
      Congruent N C (.ifElse cond yes no) (.ifElse cond' yes' no')
  | cases {arg arg' pattern} (harg : OperandTwin N arg arg')
      (hpinned : ∀ z ∈ pattern.pinned, N z z) (yes no yes' no' : Stmt) :
      Congruent N C (.cases arg pattern yes no) (.cases arg' pattern yes' no')
  | attempt (caught : Ident) (body handler body' handler' : Stmt) :
      Congruent N C (.attempt body caught handler) (.attempt body' caught handler')
  | throw {arg arg'} (harg : OperandTwin N arg arg') : Congruent N C (.throw arg) (.throw arg')
  | jumpThrow (label : Nat) : Congruent N C (.jumpThrow label) (.jumpThrow label)
  | jumpCatch (label : Nat) : Congruent N C (.jumpCatch label) (.jumpCatch label)

/-- The statements read the same variables when they are executed, and the procedures that they
create are the same and obey the condition. -/
abbrev Aligned (V : View) (C : Definition → Prop) (env env' : Env) : Stmt → Stmt → Prop :=
  Congruent (SameName V env env') C

/-- Whether nothing new comes next when a statement has been executed. -/
def isQuiet : Stmt → Bool
  | .skip | .bind .. | .binary .. | .negate .. | .get .. | .set .. | .select ..
  | .createRecord .. | .createTuple .. | .createProc .. | .createActor .. | .jumpCatch _ => true
  | _ => false

/-- What comes next when two statements have been executed, side by side. -/
inductive Follow (V : View) (C : Definition → Prop) (env env' : Env) :
    Stmt → Stmt → Next → Next → Prop where
  | quiet {s s' : Stmt} (h : isQuiet s = true) : Follow V C env env' s s' .rest .rest
  | apply {proc proc' args args' next} (h : Applied V C next) :
      Follow V C env env' (.apply proc args) (.apply proc' args') next next
  | selectApply {record record' path path' args args' next} (h : Applied V C next) : Follow V C
      env env' (.selectApply record path args) (.selectApply record' path' args') next next
  | scope {names body body' vars} (h : Capturing V names vars) : Follow V C env env'
      (.scope names body) (.scope names body') (.enter body (env.extend vars))
      (.enter body' (env'.extend vars))
  | seq {stmts stmts'} :
      Follow V C env env' (.seq stmts) (.seq stmts') (.enterAll stmts env) (.enterAll stmts' env')
  | yes {cond cond' yes no yes' no'} : Follow V C env env' (.ifElse cond yes no)
      (.ifElse cond' yes' no') (.enter yes env) (.enter yes' env')
  | no {cond cond' yes no yes' no'} : Follow V C env env' (.ifElse cond yes no)
      (.ifElse cond' yes' no') (.enter no env) (.enter no' env')
  | matched {arg arg' pattern yes no yes' no' captures}
      (h : Capturing V pattern.captures captures) : Follow V C env env'
      (.cases arg pattern yes no) (.cases arg' pattern yes' no')
      (.enter yes (env.extend captures)) (.enter yes' (env'.extend captures))
  | unmatched {arg arg' pattern yes no yes' no'} : Follow V C env env' (.cases arg pattern yes no)
      (.cases arg' pattern yes' no') (.enter no env) (.enter no' env')
  | attempt {caught body handler body' handler'} : Follow V C env env'
      (.attempt body caught handler) (.attempt body' caught handler')
      (.guarded body caught handler env) (.guarded body' caught handler' env')
  | jump {label : Nat} :
      Follow V C env env' (.jumpThrow label) (.jumpThrow label) (.jump label) (.jump label)

theorem Agree.rest {x y : Exec Unit} {R : View → Unit → Unit → Prop} (h : Agree .acts M V C x y R)
    (hs : isQuiet s = true) :
  Agree .looksThenActs M V C (do x; return .rest) (do y; return .rest) (fun W => Follow W C env env' s s')
  := (h.bind fun _ _ _ _ _ => agree_pure (.quiet hs)).ofActs

theorem forall_ofFields {fields : List (Feature × Leaf)} {r : Record}
    (h : Record.ofFields label fields = .ok r) (hfields : ∀ f ∈ fields, P f.2) :
  ∀ f ∈ r.fields, P f.2
  := by
  rw [Record.ofFields] at h
  split at h
  · cases h
  · cases h
    exact fun f hf => hfields f (mem_mergeSort.mp hf)

theorem forall_tuple {values : List Leaf} (hvalues : ∀ v ∈ values, P v) :
  ∀ f ∈ (Record.tuple label values).fields, P f.2
  := by
  intro f hf
  obtain ⟨⟨v, i⟩, hmem, rfl⟩ := mem_map.mp hf
  exact hvalues v (fst_mem_of_mem_zipIdx hmem)

theorem agree_stmt (h : Aligned V C env env' s s') :
  Agree .looksThenActs M V C (stmt env s) (stmt env' s') (fun W => Follow W C env env' s s')
  := by
  cases h with
  | scope names =>
    apply (agree_newVars names).bind
    rintro W - _ _ ⟨rfl, hnames, hvars⟩
    exact agree_pure (.scope ⟨hvars, fun x => by rw [hnames]⟩)
  | seq => exact agree_pure .seq
  | skip | jumpCatch => exact agree_pure (.quiet rfl)
  | jumpThrow => exact agree_pure .jump
  | attempt => exact agree_pure .attempt
  | bind harg htarget =>
    apply (agree_operand harg).next
    intro v hv
    apply (agree_lookup htarget.1).next
    intro _ htarget
    exact (agree_bind htarget hv).rest rfl
  | binary op hleft hright htarget =>
    apply (agree_operand hleft).next
    intro _ hleft
    apply (agree_operand hright).next
    intro _ hright
    apply (agree_lookup htarget.1).next
    intro _ htarget
    apply (agree_binary hleft hright).next
    intro l _
    exact (agree_bind htarget (.lit l)).rest rfl
  | negate harg htarget =>
    apply (agree_determinedOperand harg).next
    intro d _
    apply (agree_lookup htarget.1).next
    intro _ htarget
    apply (agree_liftFault (ordinary_negate d)).next
    intro l _
    exact (agree_bind htarget (.lit l)).rest rfl
  | get hcell htarget =>
    apply (agree_cell hcell).next
    intro id _
    apply (agree_lookup htarget.1).next
    intro _ htarget
    apply (agree_withStore (·.cell id)
      fun s hs hfits => Leaf.fits_of_allowed (hs.cell id) (hfits.cell id)).next
    intro _ hcontent
    exact (agree_bind htarget hcontent.toValue).rest rfl
  | set hcell hvalue =>
    apply (agree_cell hcell).next
    intro id _
    apply (agree_leaf hvalue).next
    intro content hcontent
    exact (agree_change (.setCell id content) (fun _ => rfl) ⟨hcontent.allowed, hcontent.toValue.within⟩
      fun s hs => hs.setCell id hcontent.inView).rest rfl
  | select hrecord hf htarget =>
    apply (agree_determinedOperand hrecord).next
    intro d _
    apply (agree_feature hf).next
    intro f _
    apply (agree_lookup htarget.1).next
    intro _ htarget
    apply agree_select.next
    intro v hv
    exact (agree_bind htarget hv).rest rfl
  | selectApply hrecord hpath hargs =>
    apply (agree_selectApply hrecord hpath hargs).mono
    rintro W - _ _ ⟨rfl, hnext⟩
    exact .selectApply hnext
  | createRecord hlabel hfields htarget =>
    apply (agree_optionalFeature hlabel).next
    intro _ _
    apply (agree_fields hfields).next
    intro _ hfields
    apply (agree_lookup htarget.1).next
    intro _ htarget
    split
    next r hr => exact (agree_bindRecord htarget (forall_ofFields hr hfields)).rest rfl
    next => exact agree_fault_bind rfl
  | createTuple hlabel hvalues htarget =>
    apply (agree_optionalFeature hlabel).next
    intro _ _
    apply (agree_leaves hvalues).next
    intro _ hvalues
    apply (agree_lookup htarget.1).next
    intro _ htarget
    exact (agree_bindRecord htarget (forall_tuple hvalues)).rest rfl
  | createProc hcaptured hC htarget | createActor hcaptured hC htarget =>
    apply (agree_newClosure (fun z hz => (hcaptured z hz).1) hC).next
    intro c hc
    apply (agree_lookup htarget.1).next
    intro _ htarget
    refine Agree.rest (agree_bindClosure htarget hc ?_) rfl
    exact fun W id hid => ⟨hid, trivial⟩
  | apply hproc hargs =>
    apply (agree_determinedOperand hproc).next
    intro _ hproc
    apply (agree_applyOperands hproc hargs).mono
    rintro W - _ _ ⟨rfl, hnext⟩
    exact .apply hnext
  | ifElse hcond yes no =>
    apply (agree_determinedOperand hcond).next
    intro d _
    split
    · exact agree_pure .yes
    · exact agree_pure .no
    · exact agree_fault rfl
  | cases harg hpinned =>
    apply (agree_operand harg).next
    intro _ hvalue
    apply (agree_matchPattern hvalue fun z hz => (hpinned z hz).1).bind
    rintro W - captures? _ ⟨rfl, hcaptures⟩
    cases captures? with
    | some captures => exact agree_pure (.matched (hcaptures captures rfl))
    | none => exact agree_pure .unmatched
  | throw harg =>
    apply (agree_operand harg).next
    intro v hv
    exact agree_throw hv

end Statement

end Exec

namespace Pairing.Narrows

variable {N N' : Pairing} {list list' more more' : List Ident}

theorem left (h : N.Narrows N' (list ++ more) (list' ++ more')) :
  N.Narrows N' list list'
  := fun x hx y hy => h x (mem_append_left _ hx) y (mem_append_left _ hy)

theorem right (h : N.Narrows N' (list ++ more) (list' ++ more')) :
  N.Narrows N' more more'
  := fun x hx y hy => h x (mem_append_right _ hx) y (mem_append_right _ hy)

end Pairing.Narrows

namespace Kernel.Stmt

/-- The names that a statement reads when it is executed. -/
def reads : Stmt → List Ident
  | .scope .. | .seq .. | .attempt .. => []
  | .ifElse cond _ _ => cond.idents
  | .cases arg pattern _ _ => arg.idents ++ pattern.pinned
  | s => s.occurrences

theorem reads_subset (s : Stmt) :
  s.reads ⊆ s.occurrences
  := by
  cases s <;> simp [reads, occurrences]

/-- The parameters and the body of the procedure that a statement creates. -/
def created? : Stmt → Option (List Ident × Stmt)
  | .createProc params body _ => some (params, body)
  | .createActor params body _ => some (params, body)
  | _ => none

end Kernel.Stmt

namespace Exec

variable {env env' : Env} {s s' : Stmt} {N N' : Pairing}

/-! ### One statement under one name -/

section

variable (hN : ∀ x, N x x)

include hN

theorem operandTwin_refl (arg : Operand) :
  OperandTwin N arg arg
  := by
  cases arg with
  | lit l => exact .lit l
  | ident x => exact .ident (hN x)

theorem operandTwins_refl (args : List Operand) :
  Forall₂ (OperandTwin N) args args
  := forall₂_same.mpr fun arg _ => operandTwin_refl hN arg

theorem labelTwin_refl (label : Option Operand) :
  Option.Rel (OperandTwin N) label label
  := by
  cases label with
  | none => exact .none
  | some arg => exact .some (operandTwin_refl hN arg)

theorem fieldTwins_refl (fields : List (Operand × Operand)) :
  Forall₂ (fun f g => OperandTwin N f.1 g.1 ∧ OperandTwin N f.2 g.2) fields fields
  := forall₂_same.mpr fun f _ => ⟨operandTwin_refl hN f.1, operandTwin_refl hN f.2⟩

theorem congruent_refl (hC : ∀ params body, s.created? = some (params, body) →
      C ⟨params, body, Stmt.captured params body⟩) :
  Congruent N C s s
  := by
  have hop := operandTwin_refl hN
  have hops := operandTwins_refl hN
  cases s with
  | scope names body => exact .scope names body body
  | seq stmts => exact .seq stmts stmts
  | skip => exact .skip
  | bind arg target => exact .bind (hop arg) (hN target)
  | binary op left right target => exact .binary op (hop left) (hop right) (hN target)
  | negate arg target => exact .negate (hop arg) (hN target)
  | get cell target => exact .get (hop cell) (hN target)
  | set cell value => exact .set (hop cell) (hop value)
  | select record f target => exact .select (hop record) (hop f) (hN target)
  | selectApply record path args => exact .selectApply (hop record) (hops path) (hops args)
  | createRecord label fields target =>
    exact .createRecord (labelTwin_refl hN label) (fieldTwins_refl hN fields) (hN target)
  | createTuple label values target => exact .createTuple (labelTwin_refl hN label) (hops values) (hN target)
  | createProc _ _ target => exact .createProc (fun x _ => hN x) (hC _ _ rfl) (hN target)
  | createActor _ _ target => exact .createActor (fun x _ => hN x) (hC _ _ rfl) (hN target)
  | apply proc args => exact .apply (hop proc) (hops args)
  | ifElse cond yes no => exact .ifElse (hop cond) yes no yes no
  | cases arg _ yes no => exact .cases (hop arg) (fun x _ => hN x) yes no yes no
  | attempt body caught handler => exact .attempt caught body handler body handler
  | throw arg => exact .throw (hop arg)
  | jumpThrow label => exact .jumpThrow label
  | jumpCatch label => exact .jumpCatch label

end

/-! ### Fewer correspondences -/

theorem operandTwins_narrow {args args' : List Operand} (h : Forall₂ (OperandTwin N) args args')
    (hN : N.Narrows N' (Kernel.operandIdents args) (Kernel.operandIdents args')) :
  Forall₂ (OperandTwin N') args args'
  := by
  induction h with
  | nil => exact .nil
  | cons harg _ ih => exact .cons (harg.narrow hN.left) (ih hN.right)

theorem labelTwin_narrow {label label' : Option Operand} (h : Option.Rel (OperandTwin N) label label')
    (hN : N.Narrows N' (Kernel.operandIdents label.toList) (Kernel.operandIdents label'.toList)) :
  Option.Rel (OperandTwin N') label label'
  := by
  cases h with
  | none => exact .none
  | some h => exact .some (h.narrow hN.left)

theorem fieldTwins_narrow {fields fields' : List (Operand × Operand)}
    (h : Forall₂ (fun f g => OperandTwin N f.1 g.1 ∧ OperandTwin N f.2 g.2) fields fields')
    (hN : N.Narrows N' (fields.flatMap fun (f, v) => f.idents ++ v.idents)
      (fields'.flatMap fun (f, v) => f.idents ++ v.idents)) :
  Forall₂ (fun f g => OperandTwin N' f.1 g.1 ∧ OperandTwin N' f.2 g.2) fields fields'
  := by
  induction h with
  | nil => exact .nil
  | cons hfield _ ih =>
    exact .cons ⟨hfield.1.narrow hN.left.left, hfield.2.narrow hN.left.right⟩ (ih hN.right)

theorem captured_narrow {params : List Ident} {body : Stmt} (h : ∀ z ∈ Stmt.captured params body, N z z)
    (hN : N.Narrows N' (body.occurrences.filter (!params.contains ·)) (body.occurrences.filter (!params.contains ·))) :
  ∀ z ∈ Stmt.captured params body, N' z z
  := fun z hz => hN z (mem_eraseDups.mp hz) z (mem_eraseDups.mp hz) (h z hz)

theorem Congruent.narrow (h : Congruent N C s s') (hN : N.Narrows N' s.reads s'.reads) :
  Congruent N' C s s'
  := by
  cases h with
  | scope names body body' => exact .scope names body body'
  | seq stmts stmts' => exact .seq stmts stmts'
  | skip => exact .skip
  | bind harg htarget => exact .bind (harg.narrow hN.left) (hN.right.single htarget)
  | negate harg htarget => exact .negate (harg.narrow hN.left) (hN.right.single htarget)
  | get hcell htarget => exact .get (hcell.narrow hN.left) (hN.right.single htarget)
  | set hcell hvalue => exact .set (hcell.narrow hN.left) (hvalue.narrow hN.right)
  | binary op hleft hright htarget =>
    exact .binary op (hleft.narrow hN.left.left) (hright.narrow hN.left.right) (hN.right.single htarget)
  | select hrecord hf htarget =>
    exact .select (hrecord.narrow hN.left.left) (hf.narrow hN.left.right) (hN.right.single htarget)
  | selectApply hrecord hpath hargs =>
    exact .selectApply (hrecord.narrow hN.left.left) (operandTwins_narrow hpath hN.left.right)
      (operandTwins_narrow hargs hN.right)
  | createRecord hlabel hfields htarget =>
    exact .createRecord (labelTwin_narrow hlabel hN.left.left) (fieldTwins_narrow hfields hN.left.right)
      (hN.right.single htarget)
  | createTuple hlabel hvalues htarget =>
    exact .createTuple (labelTwin_narrow hlabel hN.left.left) (operandTwins_narrow hvalues hN.left.right)
      (hN.right.single htarget)
  | createProc h hC htarget => exact .createProc (captured_narrow h hN.left) hC (hN.right.single htarget)
  | createActor h hC htarget => exact .createActor (captured_narrow h hN.left) hC (hN.right.single htarget)
  | apply hproc hargs => exact .apply (hproc.narrow hN.left) (operandTwins_narrow hargs hN.right)
  | ifElse hcond yes no yes' no' => exact .ifElse (hcond.narrow hN) yes no yes' no'
  | cases harg hpinned yes no yes' no' =>
    exact .cases (harg.narrow hN.left) (fun x hx => hN.right x hx x hx (hpinned x hx)) yes no yes' no'
  | attempt caught body handler body' handler' => exact .attempt caught body handler body' handler'
  | throw harg => exact .throw (harg.narrow hN)
  | jumpThrow label => exact .jumpThrow label
  | jumpCatch label => exact .jumpCatch label

theorem aligned_self (h : ∀ x ∈ s.reads, SameVar V env env' x x) (hC : ∀ params body, s.created? = some (params, body) →
      C ⟨params, body, Stmt.captured params body⟩) :
  Aligned V C env env' s s
  := by
  apply (congruent_refl (fun _ => rfl) hC).narrow
  rintro x hx _ - rfl
  exact ⟨h x hx, Iff.rfl⟩

/-! ### What follows a statement -/

theorem Follow.eq_of_self {next next' : Next} (h : Follow V C env env s s next next') :
  next = next'
  := by
  cases h <;> rfl

theorem Aligned.execute {M : Mode} (hcounts : M.counts) (h : Aligned V C env env s s) {σ : Session}
    (hσ : σ.Orderly M V C) :
  ∃ r σ' W, (stmt env s).run σ = (r, σ') ∧ σ'.Orderly M W C ∧ Session.Grown M V W σ σ' ∧
    (∀ next, r = .ok next → Follow W C env env s s next next) ∧
    ∀ e, r = .error e → e.Tame W ∧ e.Fits M W σ'.store
  := by
  obtain ⟨r, σ', W, hrun, -, hσ', hgrown, hends⟩ :=
    (agree_stmt h σ hσ σ.scene ⟨fun _ => rfl, .refl M _⟩).resolve_left (·.2.1 hcounts)
  refine ⟨r, σ', W, hrun, hσ', hgrown, ?_⟩
  cases hends with
  | starts _ hr =>
    subst hr
    refine ⟨nofun, ?_⟩
    rintro _ ⟨⟩
    exact ⟨rfl, nofun⟩
  | alike _ _ hr =>
    cases hr with
    | ok h =>
      obtain rfl := h.eq_of_self
      refine ⟨?_, nofun⟩
      rintro _ ⟨⟩
      exact h
    | error h hfits =>
      refine ⟨nofun, ?_⟩
      rintro _ ⟨⟩
      exact ⟨h, hfits⟩

end Exec

/-! ### Every session -/

def Machine.reframe (m : Machine) (stack : Stack) (steps : Nat) : Machine := { m with stack, steps }

def Session.reframe (σ : Session) (stack : Stack) (steps : Nat) : Session :=
  { σ with machine := σ.machine.reframe stack steps }

namespace Exec

variable {x : Exec α} {f : α → Exec β} {env : Env} {s : Stmt}

/-- The computation does the same whatever is on the stack, and whatever the count of steps, and leaves them
as they are. -/
def Blind {α : Type} (x : Exec α) : Prop :=
  ∀ σ stack steps, x.run (σ.reframe stack steps) = ((x.run σ).1, (x.run σ).2.reframe stack steps)

/-- The computation is of the stage in every session, and does not depend on the scene. -/
def Staged (g : Stage) (x : Exec α) : Prop :=
  Agree g .lax (.all fun _ => True) (fun _ => True) x x Anyhow

theorem Staged.ends (h : Staged g x) (σ : Session) (stack : Stack) (steps : Nat) :
  ∃ r σ', x.run σ = (r, σ') ∧ g.Allows σ (r, σ') ∧ σ'.settings = σ.settings ∧
    x.run (σ.reframe stack steps) = (r, σ'.reframe stack steps)
  := by
  obtain ⟨r, σ', W, hrun, hallows, -, hgrown, hends⟩ := (h σ (σ.tame_all _).lax
    { σ.scene with stack, steps } ⟨fun _ => rfl, .refl _ _⟩).resolve_left (·.2.1 trivial)
  refine ⟨r, σ', hrun, hallows, hgrown.settings, ?_⟩
  obtain ⟨r', w, hrun', hw, hr⟩ := hends.exists_alike trivial
  obtain rfl := hw.eq (fun _ => trivial) trivial trivial
  have hsame : r' = r := by
    cases hr with
    | ok h => rw [h.1]
    | error => rfl
  have hwithin : σ'.within ⟨stack, steps, σ.self, σ'.world⟩ = σ'.reframe stack steps := by
    rw [← hgrown.self]
    rfl
  rw [hsame] at hrun'
  exact hrun'.trans (congrArg (Prod.mk r) hwithin)

theorem Staged.blind (h : Staged g x) :
  x.Blind
  := by
  intro σ stack steps
  obtain ⟨r, _, hrun, -, -, hrun'⟩ := h.ends σ stack steps
  rw [hrun, hrun']

theorem Blind.stack (h : x.Blind) (σ : Session) :
  (x.run σ).2.stack = σ.stack
  := congrArg (·.2.stack) (h σ σ.stack σ.steps)

theorem Staged.allows (h : Staged g x) (σ : Session) :
  g.Allows σ (x.run σ)
  := by
  obtain ⟨r, _, hrun, hallows, -, -⟩ := h.ends σ [] 0
  rw [hrun]
  exact hallows

theorem Staged.settings (h : Staged g x) (σ : Session) :
  (x.run σ).2.settings = σ.settings
  := by
  obtain ⟨r, _, hrun, -, hsettings, -⟩ := h.ends σ [] 0
  rw [hrun]
  exact hsettings

theorem Staged.look (hx : Staged .looks x) (hf : ∀ a, Staged .looks (f a)) :
  Staged .looks (x >>= f)
  := by
  apply Agree.bind hx
  rintro W hW a _ ⟨rfl, -⟩
  obtain rfl := View.eq_all hW
  exact hf a

theorem sameVar_self (hV : ∀ x, V.names x) (henv : ∀ b ∈ env, V.vars b.2) (x : Ident) :
  SameVar V env env x x
  := by
  cases hx : env.lookup x with
  | none => exact .missing (hV x) hx hx
  | some v => exact .bound v hx hx (henv _ (Env.mem_of_lookup hx))

theorem sameVar_all (env : Env) (x : Ident) :
  SameVar (.all fun _ => True) env env x x
  := sameVar_self (fun _ => trivial) (fun _ _ => trivial) x

theorem fits_all (v : Value) :
  v.Fits .lax (.all fun _ => True)
  := ⟨v.in_all, fun a _ => a.fits_of_all (fun _ => trivial) ⟨trivial, trivial⟩, False.elim⟩

theorem aligned_all (env : Env) (s : Stmt) :
  Aligned (.all fun _ => True) (fun _ => True) env env s s
  := aligned_self (fun x _ => sameVar_all env x) fun _ _ _ => trivial

theorem staged_operandVars (env : Env) (args : List Operand) :
  Staged .looks (operandVars env args)
  := (agree_operandVars (operandTwins_refl (fun x => ⟨sameVar_all env x, Iff.rfl⟩) args)).mono fun _ _ _ _ h => ⟨h.1, trivial⟩

theorem staged_operand (env : Env) (arg : Operand) :
  Staged .looks (operand env arg)
  := (agree_operand (operandTwin_refl (fun x => ⟨sameVar_all env x, Iff.rfl⟩) arg)).anyhow

theorem staged_determinedOperand (env : Env) (arg : Operand) :
  Staged .looks (determinedOperand env arg)
  := (agree_determinedOperand (operandTwin_refl (fun x => ⟨sameVar_all env x, Iff.rfl⟩) arg)).anyhow

theorem staged_matchPattern (env : Env) (value : Value) (p : Kernel.Pattern) :
  Staged .looks (matchPattern env value p)
  := (agree_matchPattern (fits_all value) fun x _ => sameVar_all env x).mono fun _ _ _ _ h => ⟨h.1, trivial⟩

theorem staged_stmt (env : Env) (s : Stmt) :
  Staged .looksThenActs (stmt env s)
  := (agree_stmt (aligned_all env s)).mono fun _ _ _ _ h => ⟨h.eq_of_self, trivial⟩

end Exec

/-! ### Acts of correspondence -/

/-- A step does at most one act of correspondence. -/
theorem Session.act_step (σ : Session) :
  σ.mail.Act σ.step.2.mail
  := by
  rcases read_step mail (fun _ _ _ => rfl) σ with hmail | ⟨s, env, rest, hmail⟩
  · rw [hmail]
    exact .quiet
  · rw [hmail]
    exact ((Exec.staged_stmt env s).allows (σ.popped rest)).2

end ActorLang
