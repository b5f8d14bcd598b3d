import ActorLang.Proofs.Surface.Rules

/-!
# Proper programs

All names of a program that has been read are written ones, and its matches have clauses.
-/

namespace ActorLang

open List

/-- All names in the expression are written ones, and its matches have clauses. -/
inductive Expr.Proper : Expr → Prop where
  | lit (span : Span) (value : Literal) : Proper (.mk span (.lit value))
  | ident (span : Span) {name} (hname : Written name) : Proper (.mk span (.ident name))
  | record (span : Span) {label fields} (hlabel : ∀ e ∈ label, Proper e)
      (hfeatures : ∀ f ∈ fields, Proper f.1) (hvalues : ∀ f ∈ fields, Proper f.2) :
      Proper (.mk span (.record label fields))
  | tuple (span : Span) {label values} (hlabel : ∀ e ∈ label, Proper e)
      (hvalues : ∀ e ∈ values, Proper e) : Proper (.mk span (.tuple label values))
  | binary (span : Span) (op : BinaryOp) {left right} (hleft : Proper left)
      (hright : Proper right) : Proper (.mk span (.binary op left right))
  | unary (span : Span) (op : UnaryOp) {operand} (h : Proper operand) :
      Proper (.mk span (.unary op operand))
  | content (span : Span) {cell} (h : Proper cell) : Proper (.mk span (.content cell))
  | select (span : Span) {record feature} (hrecord : Proper record) (hfeature : Proper feature) :
      Proper (.mk span (.select record feature))
  | apply (span : Span) {proc args} (hproc : Proper proc) (hargs : ∀ e ∈ args, Proper e) :
      Proper (.mk span (.apply proc args))
  | selectApply (span : Span) {record} (name : String) {args} (hrecord : Proper record)
      (hargs : ∀ e ∈ args, Proper e) : Proper (.mk span (.selectApply record name args))
  | var (span : Span) {decls} (hnames : ∀ name value, .mk name value ∈ decls → Written name)
      (hvalues : ∀ name value, .mk name (some value) ∈ decls → Proper value) :
      Proper (.mk span (.var decls))
  | unify (span : Span) {left right} (hleft : Proper left) (hright : Proper right) :
      Proper (.mk span (.unify left right))
  | assign (span : Span) {cell value} (hcell : Proper cell) (hvalue : Proper value) :
      Proper (.mk span (.assign cell value))
  | func (span : Span) {name params body} (hname : ∀ x ∈ name.toList ++ params, Written x)
      (hbody : ∀ e ∈ body, Proper e) : Proper (.mk span (.func name params body))
  | proc (span : Span) {name params body} (hname : ∀ x ∈ name.toList ++ params, Written x)
      (hbody : ∀ e ∈ body, Proper e) : Proper (.mk span (.proc name params body))
  | block (span : Span) {body} (hbody : ∀ e ∈ body, Proper e) : Proper (.mk span (.block body))
  | ifElse (span : Span) {branches otherwise}
      (hconds : ∀ cond body, .mk cond body ∈ branches → Proper cond)
      (hbodies : ∀ cond body, .mk cond body ∈ branches → ∀ e ∈ body, Proper e)
      (hotherwise : ∀ body ∈ otherwise, ∀ e ∈ body, Proper e) :
      Proper (.mk span (.ifElse branches otherwise))
  | cases (span : Span) {arg clauses otherwise} (harg : Proper arg) (hclauses : clauses ≠ [])
      (hpatterns : ∀ p guard body, .mk p guard body ∈ clauses → p.Proper)
      (hguards : ∀ p guard body, .mk p (some guard) body ∈ clauses → Proper guard)
      (hbodies : ∀ p guard body, .mk p guard body ∈ clauses → ∀ e ∈ body, Proper e)
      (hotherwise : ∀ body ∈ otherwise, ∀ e ∈ body, Proper e) :
      Proper (.mk span (.cases arg clauses otherwise))
  | whileLoop (span : Span) {cond body} (hcond : Proper cond) (hbody : ∀ e ∈ body, Proper e) :
      Proper (.mk span (.whileLoop cond body))
  | forLoop (span : Span) {name iter body} (hname : Written name) (hiter : Proper iter)
      (hbody : ∀ e ∈ body, Proper e) : Proper (.mk span (.forLoop name iter body))
  | attempt (span : Span) {body catches final} (hbody : ∀ e ∈ body, Proper e)
      (hpatterns : ∀ p guard body, .mk p guard body ∈ catches → p.Proper)
      (hguards : ∀ p guard body, .mk p (some guard) body ∈ catches → Proper guard)
      (hbodies : ∀ p guard body, .mk p guard body ∈ catches → ∀ e ∈ body, Proper e)
      (hfinal : ∀ body ∈ final, ∀ e ∈ body, Proper e) :
      Proper (.mk span (.attempt body catches final))
  | throw (span : Span) {value} (h : Proper value) : Proper (.mk span (.throw value))
  | ret (span : Span) {value} (h : ∀ e ∈ value, Proper e) : Proper (.mk span (.ret value))
  | brk (span : Span) : Proper (.mk span .brk)
  | cont (span : Span) : Proper (.mk span .cont)
  | skip (span : Span) : Proper (.mk span .skip)
  | actor (span : Span) {name params items} (hname : ∀ x ∈ name :: params, Written x)
      (hsentences : ∀ e, .sentence e ∈ items → Proper e)
      (hpatterns : ∀ k p guard body, .handler k (.mk p guard body) ∈ items → p.Proper)
      (hguards : ∀ k p guard body, .handler k (.mk p (some guard) body) ∈ items → Proper guard)
      (hbodies : ∀ k p guard body, .handler k (.mk p guard body) ∈ items → ∀ e ∈ body, Proper e) :
      Proper (.mk span (.actor name params items))

variable {R : Rule.Readings} {k i : Nat} {operand expr : Bool → Rule Expr} {label : Option Expr} {start : Span}
  {n : Bool → Nat}

namespace Rule

/-! ### Expressions -/

theorem reads_node {start : Span} {form : Form} (h : R.spelled → ∀ span, Expr.Proper (.mk span form)) :
  Reads R k 0 Expr.Proper fun _ => node start form
  := by
  apply reads_lastSpan.before
  intro _ _
  exact .pure fun hs => h hs _

theorem reads_atSequenceEnd :
  Reads R k 0 (fun _ => True) fun _ => atSequenceEnd
  := by
  apply reads_peek
  intro _ _
  exact .of_reads (.pure fun _ => trivial)

section Expressions

theorem reads_sentences {sentence : Bool → Rule Expr} (h : Reads R k 1 Expr.Proper sentence)
    (hn : ∀ b, R.total b ≤ k + n b) :
  Reads R k 0 (fun body => ∀ e ∈ body, e.Proper) fun b => sentences (sentence b) (n b)
  := by
  refine ReadsIf.loop (V := fun _ => True) (s := ()) (l := fun b n _ => sentences (sentence b) n) 0
    (fun _ _ _ _ _ => rfl) (fun k' hk n ih _ _ => ?_) hn trivial
  apply reads_atSequenceEnd.before
  intro _ _
  split
  · exact .pure fun _ => forall_mem_nil _
  · apply (h.later hk).each
    intro e he
    apply (ih () trivial).before
    intro _ hrest
    exact .pure fun hs => forall_mem_cons.mpr ⟨he hs, hrest hs⟩

/-- The names and values of declarations are proper. -/
def ProperDecls (decls : List Decl) : Prop :=
  (∀ name value, .mk name value ∈ decls → Written name) ∧ ∀ name value, .mk name (some value) ∈ decls → value.Proper

theorem ProperDecls.cons {name : String} {value : Option Expr} {rest : List Decl}
    (hname : Written name) (hvalue : ∀ e ∈ value, e.Proper) (hrest : ProperDecls rest) :
  ProperDecls (.mk name value :: rest)
  := by
  constructor
  · intro _ _ hmem
    rcases mem_cons.mp hmem with heq | hmem
    · cases heq
      exact hname
    · exact hrest.1 _ _ hmem
  · intro _ _ hmem
    rcases mem_cons.mp hmem with heq | hmem
    · cases heq
      exact hvalue _ rfl
    · exact hrest.2 _ _ hmem

theorem reads_declaration (h : Reads R k 1 Expr.Proper expr) :
  Reads R k 1 (fun d => ∀ rest, ProperDecls rest → ProperDecls (d :: rest)) fun b => declaration (expr b)
  := by
  apply reads_identifier.bind
  intro _ hname
  apply reads_eat
  · apply (h.later (Nat.le_succ k)).before
    intro _ hvalue
    apply ReadsIf.pure
    intro hs _ hrest
    apply ProperDecls.cons (hname hs) _ hrest
    rintro _ ⟨⟩
    exact hvalue hs
  · exact .pure fun hs rest hrest => .cons (hname hs) (by simp) hrest

theorem reads_declarations (h : Reads R k 1 Expr.Proper expr) (hn : ∀ b, R.total b + 1 ≤ k + n b) :
  Reads R k 0 ProperDecls fun b => declarations (expr b) (n b)
  := by
  have hnil : ProperDecls [] := by simp [ProperDecls]
  refine ReadsIf.loop (V := fun _ => True) (s := ()) (l := fun b n _ => declarations (expr b) n) 1 nofun
    (fun k' hk n ih _ _ => ?_) hn trivial
  apply (reads_declaration (h.later hk)).each
  intro d hd
  apply reads_eat
  · apply ((ih () trivial).later (Nat.le_succ _)).before
    intro rest hrest
    exact .pure fun hs => hd hs rest (hrest hs)
  · exact .pure fun hs => hd hs [] hnil

theorem reads_sentence (h : Reads R k 1 Expr.Proper expr) :
  Reads R k 1 Expr.Proper fun b => sentence (expr b)
  := by
  have hafter := h.later (Nat.le_succ k)
  apply reads_peekSpan.before
  intro _ _
  apply reads_eat
  · apply ReadsIf.remaining
    intro _ hk
    apply (reads_declarations (hafter.later hk) (by omega)).before
    intro _ hdecls
    exact reads_node fun hs span => .var span (hdecls hs).1 (hdecls hs).2
  · apply h.bind
    intro _ hleft
    apply reads_eat
    · apply hafter.before
      intro _ hright
      exact reads_node fun hs span => .unify span (hleft hs) (hright hs)
    · apply reads_eat
      · apply hafter.before
        intro _ hvalue
        exact reads_node fun hs span => .assign span (hleft hs) (hvalue hs)
      · exact .pure hleft

theorem reads_sequence (h : Reads R k 1 Expr.Proper expr) :
  Reads R k 0 (fun body => ∀ e ∈ body, e.Proper) fun b => sequence (expr b)
  := by
  apply ReadsIf.remaining
  intro _ hk
  exact reads_sentences (reads_sentence (h.later hk)) (by omega)

/-! ### Operators -/

theorem reads_operators {left : Expr} (level : Nat) (h : Reads R k 1 Expr.Proper operand)
    (hn : ∀ b, R.total b ≤ k + n b) (hleft : R.spelled → left.Proper) :
  Reads R k 0 Expr.Proper fun b => operators level (operand b) start (n b) left
  := by
  refine ReadsIf.loop (V := fun left => R.spelled → left.Proper) 0
    (fun _ _ _ _ _ => rfl) (fun k' hk n ih left hleft => ?_) hn hleft
  apply reads_peek
  intro got _
  split
  · exact .of_reads (.pure hleft)
  · rename_i op hop
    obtain ⟨t, rfl, -⟩ := Option.bind_eq_some_iff.mp hop
    apply reads_advance.each
    intro _ _
    apply (h.later (Nat.le_succ_of_le hk)).before
    intro _ hright
    apply (reads_node fun hs span => .binary span op (hleft hs) (hright hs)).before
    intro e he
    split
    · exact .pure he
    · exact ih e he

theorem reads_binaryBelow (m : Nat) (h : Reads R k 1 Expr.Proper operand) :
  Reads R k 1 Expr.Proper fun b => binaryBelow (operand b) m
  := by
  induction m with
  | zero => exact h
  | succ m ih =>
    apply reads_peekSpan.before
    intro _ _
    apply ih.bind
    intro _ hleft
    apply ReadsIf.remaining
    intro _ hk
    exact reads_operators m (ih.later hk) (by omega) hleft

theorem proper_negation {operand : Expr} (h : operand.Proper) (span : Span) :
  Expr.Proper (.mk span (negation operand))
  := by
  rw [negation]
  split
  · split
    · exact .lit span _
    · exact .unary span _ h
  · exact .unary span _ h

theorem reads_unary (h : Reads R k 1 Expr.Proper operand) (hn : ∀ b, R.total b ≤ k + n b) :
  Reads R k 1 Expr.Proper fun b => unary (operand b) (n b)
  := by
  refine ReadsIf.loop (V := fun _ => True) (s := ()) (l := fun b n _ => unary (operand b) n) 0
    (fun _ _ _ _ _ => rfl) (fun k' hk n ih _ _ => ?_) hn trivial
  have hform {t : Token} {start : Span} {form : Expr → Form}
      (hform : ∀ e, e.Proper → ∀ span, Expr.Proper (.mk span (form e))) :
      ReadsAt R (some t) k' 1 Expr.Proper fun b =>
        advance >>= fun _ => unary (operand b) (n b) >>= fun e => node start (form e) := by
    apply reads_advance.next
    intro _ _
    apply (ih () trivial).before
    intro e he
    exact reads_node fun hs => hform e (he hs)
  apply reads_peekSpan.before
  intro _ _
  apply reads_peek
  intro _ _
  split
  · exact hform fun e he span => proper_negation he span
  · exact hform fun e he span => .unary span _ he
  · exact hform fun e he span => .content span he
  · exact .of_reads (h.later hk)

theorem reads_arguments (h : Reads R (k + 1) 1 Expr.Proper expr) :
  Reads R k 1 (fun args => ∀ e ∈ args, e.Proper) fun b => arguments (expr b)
  := reads_enclosed _ _ h

theorem reads_suffixes {e : Expr} (h : Reads R k 1 Expr.Proper expr) (hn : ∀ b, R.total b ≤ k + n b)
    (he : R.spelled → e.Proper) :
  Reads R k 0 Expr.Proper fun b => suffixes (expr b) start (n b) e
  := by
  refine ReadsIf.loop (V := fun e => R.spelled → e.Proper) 0
    (fun _ _ _ _ _ => rfl) (fun k' hk n ih e he => ?_) hn he
  have h := h.later (Nat.le_succ_of_le hk)
  have hnext {form : Form} (hform : R.spelled → ∀ span, Expr.Proper (.mk span form)) :
      Reads R (k' + 1) 0 Expr.Proper fun b => node start form >>= suffixes (expr b) start (n b) := by
    apply (reads_node hform).before
    exact ih
  apply reads_peek
  intro _ _
  split
  · apply reads_advance.each
    intro _ _
    apply reads_peekSpan.before
    intro nameSpan _
    apply reads_fieldName.before
    intro name _
    apply reads_peek
    intro _ _
    apply ReadsIf.of_reads
    split
    · apply (reads_arguments (h.later (Nat.le_succ _))).before
      intro _ hargs
      exact hnext fun hs span => .selectApply span name (he hs) (hargs hs)
    · exact hnext fun hs span => .select span (he hs) (.lit nameSpan _)
  · apply reads_advance.each
    intro _ _
    apply h.before
    intro _ hfeature
    apply reads_expect_then
    exact hnext fun hs span => .select span (he hs) (hfeature hs)
  · apply ReadsIf.of_reads
    apply (reads_arguments h).each
    intro _ hargs
    exact hnext fun hs span => .apply span (he hs) (hargs hs)
  · exact .of_reads (.pure he)

/-! ### Containers -/

theorem reads_record (h : Reads R (k + 1) 1 Expr.Proper expr) (hlabel : R.spelled → ∀ e ∈ label, e.Proper) :
  Reads R k 1 Expr.Proper fun b => record (expr b) start label
  := by
  apply (reads_enclosed _ _ (reads_field h)).bind
  intro _ hfields
  exact reads_node fun hs span => .record span (hlabel hs) (fun f hf => (hfields hs f hf).1)
    fun f hf => (hfields hs f hf).2

theorem reads_tuple (h : Reads R (k + 1) 1 Expr.Proper expr) (hlabel : R.spelled → ∀ e ∈ label, e.Proper) :
  Reads R k 1 Expr.Proper fun b => tuple (expr b) start label
  := by
  apply (reads_enclosed _ _ h).bind
  intro _ hvalues
  exact reads_node fun hs span => .tuple span (hlabel hs) (hvalues hs)

theorem reads_labelled {label : Expr} (h : Reads R k 1 Expr.Proper expr) (hlabel : R.spelled → label.Proper) :
  Reads R k 0 Expr.Proper fun b => labelled (expr b) start label
  := by
  have hsome : R.spelled → ∀ e ∈ some label, e.Proper := by
    rintro hs _ ⟨⟩
    exact hlabel hs
  apply reads_eat
  · apply reads_peek
    intro _ _
    apply ReadsIf.of_reads
    have h := h.later (Nat.le_add_right k 2)
    split
    · exact (reads_record h hsome).any
    · exact (reads_tuple h hsome).any
    · exact .fail _
  · exact .pure hlabel

/-! ### Control flow -/

/-- A condition and what it guards are proper. -/
def ProperBranch : Branch → Prop
  | .mk cond body => cond.Proper ∧ ∀ e ∈ body, e.Proper

/-- A pattern, a guard and what they lead to are proper. -/
def ProperClause : Clause → Prop
  | .mk p guard body => p.Proper ∧ (∀ e ∈ guard, e.Proper) ∧ ∀ e ∈ body, e.Proper

section

variable (h : Reads R k 1 Expr.Proper expr)

include h

theorem reads_branch :
  Reads R k 1 ProperBranch fun b => branch (expr b)
  := by
  apply h.bind
  intro _ hcond
  apply reads_expect_then
  apply (reads_sequence h).before
  intro _ hbody
  exact .pure fun hs => ⟨hcond hs, hbody hs⟩

theorem reads_clause (before : Keyword) :
  Reads R k 1 ProperClause fun b => clause (expr b) before
  := by
  apply reads_pattern.bind
  intro p hp
  apply (reads_optional _ (h.later (Nat.le_succ k))).before
  intro _ hguard
  apply reads_expect_then
  apply (reads_sequence h).before
  intro _ hbody
  exact .pure fun hs => ⟨hp hs, hguard hs, hbody hs⟩

theorem reads_tail (w : Keyword) :
  Reads R k 0 (fun o => ∀ body ∈ o, ∀ e ∈ body, e.Proper) fun b => optional w (sequence (expr b))
  := reads_optional w (reads_sequence (h.later (Nat.le_succ k)))

theorem reads_conditional :
  Reads R k 1 Expr.Proper fun b => conditional (expr b) start
  := by
  apply (reads_branch h).bind
  intro first hfirst
  apply ReadsIf.remaining
  intro _ hk
  have h := h.later hk
  apply (reads_introduced _ (reads_branch h) (by omega)).before
  intro rest hrest
  apply (reads_tail h _).before
  intro _ hotherwise
  apply reads_expect_then
  apply reads_node
  intro hs span
  have hall : ∀ b ∈ first :: rest, ProperBranch b := forall_mem_cons.mpr ⟨hfirst hs, hrest hs⟩
  exact .ifElse span (fun _ _ hmem => (hall _ hmem).1) (fun _ _ hmem => (hall _ hmem).2) (hotherwise hs)

theorem reads_alternatives :
  Reads R k 1 Expr.Proper fun b => alternatives (expr b) start
  := by
  apply h.bind
  intro arg harg
  apply ReadsIf.remaining
  intro k' hk
  have h := h.later hk
  apply (reads_introduced _ (reads_clause h _) (by omega)).before
  intro clauses hclauses
  split
  · exact .fail _
  · rename_i hempty
    apply (reads_tail h _).before
    intro _ hotherwise
    apply reads_expect_then
    exact reads_node fun hs span => .cases span (harg hs) (by simpa using hempty)
      (fun _ _ _ hmem => (hclauses hs _ hmem).1) (fun _ _ _ hmem => (hclauses hs _ hmem).2.1 _ rfl)
      (fun _ _ _ hmem => (hclauses hs _ hmem).2.2) (hotherwise hs)

theorem reads_whileLoop :
  Reads R k 1 Expr.Proper fun b => whileLoop (expr b) start
  := by
  apply h.bind
  intro _ hcond
  apply reads_expect_then
  apply (reads_sequence h).before
  intro _ hbody
  apply reads_expect_then
  exact reads_node fun hs span => .whileLoop span (hcond hs) (hbody hs)

theorem reads_forLoop :
  Reads R k 1 Expr.Proper fun b => forLoop (expr b) start
  := by
  apply reads_identifier.bind
  intro _ hname
  apply reads_expect_then
  apply h.before
  intro _ hiter
  apply reads_expect_then
  apply (reads_sequence h).before
  intro _ hbody
  apply reads_expect_then
  exact reads_node fun hs span => .forLoop span (hname hs) (hiter hs) (hbody hs)

theorem reads_attempt :
  Reads R k 1 Expr.Proper fun b => attempt (expr b) start
  := by
  apply (reads_sequence h).before
  intro _ hbody
  apply ReadsIf.remaining
  intro _ hk
  have h := h.later hk
  apply (reads_introduced _ (reads_clause h _) (by omega)).before
  intro _ hcatches
  apply (reads_tail h _).before
  intro _ hfinal
  apply (reads_expect _).bind
  intro _ _
  exact reads_node fun hs span => .attempt span (hbody hs) (fun _ _ _ hmem => (hcatches hs _ hmem).1)
    (fun _ _ _ hmem => (hcatches hs _ hmem).2.1 _ rfl) (fun _ _ _ hmem => (hcatches hs _ hmem).2.2) (hfinal hs)

theorem reads_procedure {form : Option String → List String → List Expr → Form}
    (hform : R.spelled → ∀ span name params body, (∀ x ∈ name.toList ++ params, Written x) →
      (∀ e ∈ body, e.Proper) → Expr.Proper (.mk span (form name params body))) :
  Reads R k 1 Expr.Proper fun b => procedure (expr b) start form
  := by
  have hrest (name : Option String) (hname : R.spelled → ∀ x ∈ name.toList, Written x) :
      Reads R k 1 Expr.Proper (fun b => do
        let ps ← params
        expectWord .in_
        let body ← sequence (expr b)
        expectWord .end_
        node start (form name ps body)) := by
    apply reads_params.bind
    intro ps hps
    apply reads_expect_then
    apply (reads_sequence h).before
    intro body hbody
    apply reads_expect_then
    exact reads_node fun hs span =>
      hform hs span name ps body (forall_mem_append.mpr ⟨hname hs, hps hs⟩) (hbody hs)
  apply reads_peek
  intro _ hgot
  split
  · apply reads_advance.bind
    intro _ _
    refine (hrest (some _) ?_).any
    simpa [Found, Token.Spelled] using hgot
  · exact .of_reads (hrest none (by simp))

end

/-- A part of an actor is proper. -/
def ProperItem : ActorItem → Prop
  | .sentence e => e.Proper
  | .handler _ c => ProperClause c

section

variable (h : Reads R k 1 Expr.Proper expr)

include h

theorem reads_handler :
  Reads R k 1 ProperItem fun b => handler (expr b)
  := by
  have hrest (t : Token) (kind : HandlerKind) : ReadsAt R (some t) k 1 ProperItem (fun b => do
      advance
      let c ← clause (expr b) .in_
      expectWord .end_
      return .handler kind c) := by
    apply reads_advance.bind
    intro _ _
    apply (reads_clause h _).before
    intro c hclause
    apply reads_expect_then
    exact .pure hclause
  apply reads_peek
  intro _ _
  split
  · exact hrest _ .ask
  · exact hrest _ .tell
  · exact .of_reads (.fail _)

theorem reads_actorItems (hn : ∀ b, R.total b + 1 ≤ k + n b) :
  Reads R k 0 (fun items => ∀ item ∈ items, ProperItem item) fun b => actorItems (expr b) (n b)
  := by
  refine ReadsIf.loop (V := fun _ => True) (s := ()) (l := fun b n _ => actorItems (expr b) n) 1 nofun
    (fun k' hk n ih _ _ => ?_) hn trivial
  have h := h.later hk
  apply reads_peek
  intro _ _
  split
  · exact .of_reads (.pure fun _ => forall_mem_nil _)
  · apply reads_advance.each
    intro _ _
    apply (reads_handler (h.later (Nat.le_succ _))).before
    intro _ hitem
    apply (ih () trivial).before
    intro _ hrest
    exact .pure fun hs => forall_mem_cons.mpr ⟨hitem hs, hrest hs⟩
  · exact .of_reads (.fail _)
  · apply ReadsIf.of_reads
    apply (reads_sentence h).each
    intro e he
    apply (ih () trivial).before
    intro _ hrest
    exact .pure fun hs => forall_mem_cons.mpr ⟨he hs, hrest hs⟩

theorem reads_actor :
  Reads R k 1 Expr.Proper fun b => actor (expr b) start
  := by
  apply reads_identifier.bind
  intro _ hname
  apply reads_params.before
  intro _ hps
  apply reads_expect_then
  apply ReadsIf.remaining
  intro _ hk
  apply (reads_actorItems (h.later hk) (by omega)).before
  intro _ hitems
  apply reads_expect_then
  exact reads_node fun hs span => .actor span (forall_mem_cons.mpr ⟨hname hs, hps hs⟩)
    (fun _ hmem => hitems hs _ hmem) (fun _ _ _ _ hmem => (hitems hs _ hmem).1)
    (fun _ _ _ _ hmem => (hitems hs _ hmem).2.1 _ rfl) (fun _ _ _ _ hmem => (hitems hs _ hmem).2.2)

/-! ### Whole expressions -/

end

section

variable (h : Reads R (k + 1) 1 Expr.Proper expr)

include h

theorem reads_construct? (w : Keyword) :
  ReadsAt R (some (.word w)) k 1 Expr.Proper fun b => match construct? (expr b) start w with
    | some rule => advance >>= fun _ => rule
    | none => fail (.expression (some (.word w)))
  := by
  have hadvance {t : Token} {rule : Bool → Rule Expr} (hrule : Reads R (k + 1) 0 Expr.Proper rule) :
      ReadsAt R (some t) k 1 Expr.Proper fun b => advance >>= fun _ => rule b :=
    reads_advance.next fun _ _ => hrule
  cases w
  case begin =>
    apply hadvance
    apply (reads_sequence h).before
    intro _ hbody
    apply reads_expect_then
    exact reads_node fun hs span => .block span (hbody hs)
  case if_ => exact hadvance (reads_conditional h).any
  case case_ => exact hadvance (reads_alternatives h).any
  case while_ => exact hadvance (reads_whileLoop h).any
  case for_ => exact hadvance (reads_forLoop h).any
  case try_ => exact hadvance (reads_attempt h).any
  case func => exact hadvance (reads_procedure h fun _ span _ _ _ hname hbody => .func span hname hbody).any
  case proc => exact hadvance (reads_procedure h fun _ span _ _ _ hname hbody => .proc span hname hbody).any
  case actor => exact hadvance (reads_actor h).any
  case return_ =>
    apply hadvance
    apply reads_atSequenceEnd.before
    intro _ _
    split
    · exact reads_node fun _ span => .ret span (by simp)
    · apply h.before
      intro _ hvalue
      apply reads_node
      intro hs _
      apply Expr.Proper.ret
      rintro _ ⟨⟩
      exact hvalue hs
  case break_ => exact hadvance (reads_node fun _ span => .brk span)
  case continue_ => exact hadvance (reads_node fun _ span => .cont span)
  case skip => exact hadvance (reads_node fun _ span => .skip span)
  case throw =>
    apply hadvance
    apply h.before
    intro _ hvalue
    exact reads_node fun hs span => .throw span (hvalue hs)
  all_goals exact .of_reads (.fail _)

theorem reads_primary :
  Reads R k 1 Expr.Proper fun b => primary (expr b)
  := by
  have hnode (start : Span) {form : Form} (hform : R.spelled → ∀ span, Expr.Proper (.mk span form)) :
      Reads R (k + 1) 0 Expr.Proper fun b => node start form >>= labelled (expr b) start := by
    apply (reads_node hform).before
    intro _ hlabel
    exact reads_labelled h hlabel
  apply reads_peekSpan.before
  intro start _
  apply reads_literal?
  · intro l
    exact hnode start fun _ span => .lit span l
  · apply reads_peek
    intro _ hgot
    split
    · apply reads_advance.next
      intro _ _
      exact hnode start fun hs span => .ident span (hgot hs _ rfl)
    · exact .of_reads (reads_record h (by simp))
    · exact .of_reads (reads_tuple h (by simp))
    · apply reads_advance.next
      intro _ _
      apply h.before
      intro _ hinner
      apply reads_expect_then
      exact .pure hinner
    · exact reads_construct? h _
    · exact .of_reads (.fail _)

theorem reads_suffixed :
  Reads R k 1 Expr.Proper fun b => suffixed (expr b)
  := by
  apply reads_peekSpan.before
  intro _ _
  apply (reads_primary h).next
  intro e he
  apply ReadsIf.remaining
  intro _ hk
  exact reads_suffixes (h.later hk) (by omega) he

theorem reads_exprOf :
  Reads R k 1 Expr.Proper fun b => exprOf (expr b)
  := by
  apply reads_binaryBelow 5
  apply ReadsIf.remaining
  intro _ hk
  exact reads_unary ((reads_suffixed h).later hk) (by omega)

end

end Expressions

theorem reads_exprAt (hn : ∀ b, R.total b ≤ k + n b) :
  Reads R k 1 Expr.Proper fun b => exprAt (n b)
  := ReadsIf.loop (V := fun _ => True) (s := ()) (l := fun _ n _ => exprAt n) 0 (fun _ _ _ _ _ => rfl)
    (fun _ _ _ ih _ _ => reads_exprOf (ih () trivial)) hn trivial

theorem reads_programAt (hn : ∀ b, R.total b ≤ k + n b) :
  Reads R k 0 (fun p => ∀ e ∈ p.body, e.Proper) fun b => programAt (n b)
  := by
  apply (reads_sequence (reads_exprAt hn)).before
  intro _ hbody
  apply reads_peek
  intro _ _
  apply ReadsIf.of_reads
  split
  · exact .pure hbody
  · exact .fail _

theorem reads_program :
  Reads R k 0 (fun p => ∀ e ∈ p.body, e.Proper) fun _ => program
  := by
  apply ReadsIf.remaining
  intro _ _
  exact reads_programAt (by omega)

end Rule

theorem proper_of_ofTokens {tokens : List Lexeme} {p : Program}
    (htokens : ∀ l ∈ tokens, l.token.Spelled) (h : Program.ofTokens tokens = .ok p) :
  ∀ e ∈ p.body, e.Proper
  := by
  have hmoves := (Rule.reads_program (R := ⟨0, fun _ => tokens.length, True⟩)).moves true ⟨0, .unknown, tokens⟩ trivial
    ⟨Nat.le_refl _, Nat.zero_add _, fun _ => htokens⟩
  rw [Program.ofTokens, StateT.run] at h
  generalize Rule.program _ = r at h hmoves
  cases hmoves with
  | error => cases h
  | ok _ _ _ _ hproper =>
    cases h
    exact hproper trivial

end ActorLang
