import Ark.Machine
import Mathlib.Data.Set.Lattice
import Mathlib.Logic.Function.Basic

/-!
# Transactions under READ COMMITTED

A transaction is a program of statements. A statement reads the rows committed when it executes
together with its transaction's own writes, may have to wait for a lock, and may fail; the writes
become visible when the transaction commits and its locks are released. A call performs several
transactions and sends notifications between them. Calls of any number of clients interleave
statement by statement; `Call.run` performs one of them alone.
-/

namespace Ark.ReadCommitted

structure Dialect where
  Tables : Type
  Write : Type
  Key : Type
  Stmt : Type → Type
  decEqKey : DecidableEq Key
  write : Tables → Write → Tables
  /-- The lock that a statement waits for and takes. -/
  lock : {α : Type} → Stmt α → Tables → Option Key
  /-- The result and the writes of a statement, given a number that no statement got before;
  `none` is an error. -/
  exec : {α : Type} → Stmt α → Tables → ℕ → Option (α × List Write)

instance (D : Dialect) : DecidableEq D.Key := D.decEqKey

inductive Tx (D : Dialect) (β : Type) : Type 1
  | ret (b : β)
  | stmt {α : Type} (s : D.Stmt α) (k : α → Tx D β)

/-- `N` is the type of the notifications. -/
inductive Call (D : Dialect) (N β : Type) : Type 1
  | ret (b : β)
  | transaction {α : Type} (tx : Tx D α) (k : α → Call D N β)
  | notify (n : N) (k : Call D N β)

variable {D : Dialect} {N Op α β : Type}

namespace Tx

def bind (p : Tx D α) (f : α → Tx D β) : Tx D β :=
  match p with
  | .ret a => f a
  | .stmt s k => .stmt s fun a => (k a).bind f

instance : Monad (Tx D) where
  pure := .ret
  bind := bind

/-- A single statement. -/
def query (s : D.Stmt α) : Tx D α := .stmt s .ret

@[simp] theorem ret_bind (a : α) (f : α → Tx D β) : Tx.ret a >>= f = f a := rfl

@[simp] theorem pure_bind' (a : α) (f : α → Tx D β) : (pure a : Tx D α) >>= f = f a := rfl

@[simp] theorem stmt_bind {γ : Type} (s : D.Stmt γ) (k : γ → Tx D α) (f : α → Tx D β) :
    Tx.stmt s k >>= f = .stmt s fun a => k a >>= f := rfl

@[simp] theorem query_bind (s : D.Stmt α) (f : α → Tx D β) : query s >>= f = .stmt s f := rfl

@[simp] theorem pure_eq_ret (a : α) : (pure a : Tx D α) = .ret a := rfl

theorem bind_assoc' {γ : Type} (p : Tx D α) (f : α → Tx D β) (g : β → Tx D γ) :
    p >>= f >>= g = p >>= fun a => f a >>= g := by
  induction p with
  | ret a => rfl
  | stmt s k ih => simp only [stmt_bind, ih]

end Tx

/-- The rows that a transaction with the writes `ws` sees. -/
def view (t : D.Tables) (ws : List D.Write) : D.Tables := ws.foldl D.write t

@[simp] theorem view_nil (t : D.Tables) : view t [] = t := rfl

theorem view_append (t : D.Tables) (ws ws' : List D.Write) :
    view t (ws ++ ws') = view (view t ws) ws' := List.foldl_append

/-! ### One call alone -/

/-- The result, the tables and the next number; `none` when a statement fails. -/
def Tx.run : Tx D β → ℕ → D.Tables → Option (β × D.Tables × ℕ)
  | .ret b, n, t => some (b, t, n)
  | .stmt s k, n, t =>
    match D.exec s t n with
    | none => none
    | some (a, ws) => (k a).run (n + 1) (view t ws)

theorem Tx.run_bind (p : Tx D α) (f : α → Tx D β) (n : ℕ) (t : D.Tables) :
    (p >>= f).run n t = (p.run n t).bind fun r => (f r.1).run r.2.2 r.2.1 := by
  induction p generalizing n t with
  | ret a => rfl
  | stmt s k ih =>
    simp only [stmt_bind, run]
    cases D.exec s t n with
    | none => rfl
    | some r => exact ih r.1 (n + 1) (view t r.2)

structure Outcome (D : Dialect) (N β : Type) where
  tables : D.Tables
  next : ℕ
  notified : List N
  /-- `none` when a statement failed: its transaction is rolled back and the call throws. -/
  result : Option β

def Call.run : Call D N β → ℕ → D.Tables → Outcome D N β
  | .ret b, n, t => ⟨t, n, [], some b⟩
  | .transaction tx k, n, t =>
    match tx.run n t with
    | none => ⟨t, n, [], none⟩
    | some (a, t', n') => (k a).run n' t'
  | .notify m k, n, t =>
    let o := k.run n t
    { o with notified := m :: o.notified }

/-! ### Interleaved calls -/

inductive Client (D : Dialect) (N Op : Type) : Type 1
  | idle
  | calling {β : Type} (op : Op) (c : Call D N β)
  | inTx {α β : Type} (op : Op) (tx : Tx D α) (ws : List D.Write) (k : α → Call D N β)

/-- The operation that the client performs. -/
def Client.operation : Client D N Op → Option Op
  | .idle => none
  | .calling op _ => some op
  | .inTx op _ _ _ => some op

/-- `locks` lists the locks with the clients that hold them. -/
structure State (D : Dialect) (N Op : Type) : Type 1 where
  tables : D.Tables
  next : ℕ
  locks : List (D.Key × ℕ)
  clients : ℕ → Client D N Op
  notified : List N

inductive Action (Op : Type)
  | call (i : ℕ) (op : Op)
  | advance (i : ℕ)
  | abort (i : ℕ)

namespace State

variable (s : State D N Op) (i : ℕ)

def setClient (c : Client D N Op) : State D N Op :=
  { s with clients := Function.update s.clients i c }

/-- No other client holds the lock. -/
def free (k : D.Key) : Bool := s.locks.all fun l => l.1 ≠ k || l.2 = i

/-- The locks after client `i` took the lock of a statement. -/
def acquire (k : Option D.Key) : List (D.Key × ℕ) := (k.map (·, i)).toList ++ s.locks

def release : List (D.Key × ℕ) := s.locks.filter (·.2 ≠ i)

/-- The transaction and the call of client `i` end without a commit. -/
def rollback : State D N Op := { s.setClient i .idle with locks := s.release i }

def advanceTx (op : Op) (tx : Tx D α) (ws : List D.Write) (k : α → Call D N β) :
    Option (State D N Op) :=
  match tx with
  | .ret a =>
    some { s.setClient i (.calling op (k a)) with tables := view s.tables ws, locks := s.release i }
  | .stmt q next =>
    let v := view s.tables ws
    if (D.lock q v).all (s.free i) then
      match D.exec q v s.next with
      | none => some (s.rollback i)
      | some (a, ws') =>
        some { s.setClient i (.inTx op (next a) (ws ++ ws') k) with
          next := s.next + 1
          locks := s.acquire i (D.lock q v) }
    else none

def advanceCall (op : Op) : Call D N β → State D N Op
  | .ret _ => s.setClient i .idle
  | .transaction tx k => s.setClient i (.inTx op tx [] k)
  | .notify n k => { s.setClient i (.calling op k) with notified := s.notified ++ [n] }

def step (program : Op → Σ β : Type, Call D N β) : Action Op → Option (State D N Op)
  | .call i op =>
    match s.clients i with
    | .idle => some (s.setClient i (.calling op (program op).2))
    | _ => none
  | .advance i =>
    match s.clients i with
    | .idle => none
    | .calling op c => some (s.advanceCall i op c)
    | .inTx op tx ws k => s.advanceTx i op tx ws k
  | .abort i => some (s.rollback i)

end State

/-- Any number of clients on the tables `t₀`, all idle. -/
def machine (t₀ : D.Tables) (program : Op → Σ β : Type, Call D N β) :
    Machine (State D N Op) (Action Op) where
  init s := s = ⟨t₀, 0, [], fun _ => .idle, []⟩
  step s a := s.step program a

/-! ### A call without company

Where no other client holds a lock, a client can perform its call to the end, and the machine then
does what `Call.run` computes.
-/

section Alone

variable {t₀ : D.Tables} {program : Op → Σ β : Type, Call D N β} {s : State D N Op} {i : ℕ} {op : Op}

theorem State.free_of_alone (h : ∀ l ∈ s.locks, l.2 = i) (k : D.Key) : s.free i k = true := by
  apply List.all_eq_true.mpr
  intro l hl
  simp [h l hl]

variable (t₀ program) in
/-- The statements of a transaction, up to its commit. -/
theorem exists_run_tx {tx : Tx D α} {ws : List D.Write} {k : α → Call D N β} {a : α}
    {t : D.Tables} {n : ℕ} (hlocks : ∀ l ∈ s.locks, l.2 = i)
    (hc : s.clients i = .inTx op tx ws k)
    (hrun : tx.run s.next (view s.tables ws) = some (a, t, n)) :
    ∃ s' ws', (machine t₀ program).Run Machine.always s s' ∧
      s'.clients i = .inTx op (.ret a) ws' k ∧ view s'.tables ws' = t ∧ s'.next = n ∧
      s'.notified = s.notified ∧ ∀ l ∈ s'.locks, l.2 = i := by
  induction tx generalizing s ws with
  | ret b =>
    simp only [Tx.run, Option.some.injEq, Prod.mk.injEq] at hrun
    obtain ⟨rfl, rfl, rfl⟩ := hrun
    exact ⟨s, ws, .refl, hc, rfl, rfl, rfl, hlocks⟩
  | stmt q next ih =>
    rw [Tx.run] at hrun
    cases he : D.exec q (view s.tables ws) s.next with
    | none => simp [he] at hrun
    | some r =>
      obtain ⟨b, ws'⟩ := r
      simp only [he, ← view_append] at hrun
      let s₁ : State D N Op := { s.setClient i (.inTx op (next b) (ws ++ ws') k) with
        next := s.next + 1, locks := s.acquire i (D.lock q (view s.tables ws)) }
      have hstep : (machine t₀ program).step s (.advance i) = some s₁ := by
        have hfree : (D.lock q (view s.tables ws)).all (s.free i) = true := by
          cases D.lock q (view s.tables ws) with
          | none => rfl
          | some l => exact State.free_of_alone hlocks l
        simp only [machine, State.step, hc, State.advanceTx, hfree, he]
        rfl
      have hlocks₁ : ∀ l ∈ s₁.locks, l.2 = i := by
        intro l hl
        obtain hl | hl := List.mem_append.mp hl
        · obtain ⟨x, -, rfl⟩ := Option.map_eq_some_iff.mp (Option.mem_toList.mp hl)
          rfl
        · exact hlocks l hl
      have hc₁ : s₁.clients i = .inTx op (next b) (ws ++ ws') k := by
        simp [s₁, State.setClient]
      obtain ⟨s', ws'', hrest, hrest'⟩ := ih b hlocks₁ hc₁ hrun
      exact ⟨s', ws'', (Machine.Run.refl.tail trivial hstep).trans hrest, hrest'⟩

/-- A call that does not fail leaves the tables and notifications of `Call.run`. -/
theorem exists_run_call {c : Call D N β} (hlocks : s.locks = []) (hc : s.clients i = .calling op c)
    (hresult : (c.run s.next s.tables).result.isSome) :
    ∃ s', (machine t₀ program).Run Machine.always s s' ∧ s'.clients i = .idle ∧
      s'.tables = (c.run s.next s.tables).tables ∧ s'.next = (c.run s.next s.tables).next ∧
      s'.notified = s.notified ++ (c.run s.next s.tables).notified ∧ s'.locks = [] := by
  induction c generalizing s with
  | ret b =>
    have hstep : (machine t₀ program).step s (.advance i) = some (s.setClient i .idle) := by
      simp only [machine, State.step, hc]
      rfl
    refine ⟨_, Machine.Run.refl.tail trivial hstep, ?_, rfl, rfl, ?_, hlocks⟩
    · simp [State.setClient]
    · simp [Call.run, State.setClient]
  | notify m k ih =>
    let s₁ : State D N Op := { s.setClient i (.calling op k) with notified := s.notified ++ [m] }
    have hstep : (machine t₀ program).step s (.advance i) = some s₁ := by
      simp only [machine, State.step, hc]
      rfl
    have hc₁ : s₁.clients i = .calling op k := by simp [s₁, State.setClient]
    obtain ⟨s', hrun, hidle, ht, hn, hnote, hl⟩ := ih (s := s₁) hlocks hc₁ hresult
    refine ⟨s', (Machine.Run.refl.tail trivial hstep).trans hrun, hidle, ht, hn, ?_, hl⟩
    rw [hnote]
    exact List.append_assoc _ _ _
  | @transaction γ tx k ih =>
    cases htx : tx.run s.next s.tables with
    | none => simp [Call.run, htx] at hresult
    | some r =>
      obtain ⟨a, t, n⟩ := r
      let s₁ : State D N Op := s.setClient i (.inTx op tx [] k)
      have hstep : (machine t₀ program).step s (.advance i) = some s₁ := by
        simp only [machine, State.step, hc]
        rfl
      have hc₁ : s₁.clients i = .inTx op tx [] k := by simp [s₁, State.setClient]
      have hlocks₁ : ∀ l ∈ s₁.locks, l.2 = i := by simp [s₁, State.setClient, hlocks]
      obtain ⟨s₂, ws, hrun₂, hc₂, rfl, rfl, hnote₂, hlocks₂⟩ :=
        exists_run_tx t₀ program hlocks₁ hc₁ htx
      let s₃ : State D N Op := { s₂.setClient i (.calling op (k a)) with
        tables := view s₂.tables ws, locks := s₂.release i }
      have hstep₃ : (machine t₀ program).step s₂ (.advance i) = some s₃ := by
        simp only [machine, State.step, hc₂]
        rfl
      have hc₃ : s₃.clients i = .calling op (k a) := by simp [s₃, State.setClient]
      have hlocks₃ : s₃.locks = [] := by
        simpa [s₃, State.release, List.filter_eq_nil_iff] using fun a b => hlocks₂ (a, b)
      have hcall : Call.run (.transaction tx k) s.next s.tables =
          (k a).run s₃.next s₃.tables := by
        rw [Call.run, htx]
        rfl
      rw [hcall] at hresult
      obtain ⟨s', hrun, hidle, ht, hn, hnote, hl⟩ := ih a hlocks₃ hc₃ hresult
      refine ⟨s', ?_, hidle, ?_, ?_, ?_, hl⟩
      · exact (((Machine.Run.refl.tail trivial hstep).trans hrun₂).tail trivial hstep₃).trans hrun
      · rw [ht, hcall]
      · rw [hn, hcall]
      · rw [hnote, hcall]
        congr 1

end Alone

/-! ### What locks protect

`part k t` is what the lock `k` protects of the tables `t`. A transaction may rely on the parts
whose locks it holds, and guarantees that its commit leaves every other part alone.
-/

section Keeps

variable {P : Type} (part : D.Key → D.Tables → P) (Inv : D.Tables → Prop)

def Same (held : Set D.Key) (t t' : D.Tables) : Prop := ∀ k ∈ held, part k t' = part k t

variable {part} in
theorem Same.refl (held : Set D.Key) (t : D.Tables) : Same part held t t := fun _ _ => rfl

variable {part} in
theorem Same.trans {held : Set D.Key} {t t' t'' : D.Tables} (h : Same part held t t')
    (h' : Same part held t' t'') : Same part held t t'' :=
  fun k hk => (h' k hk).trans (h k hk)

/-- Whatever other clients commit between the statements, the transaction commits only to tables
that satisfy `Inv`, that `G` relates to the tables before, and that differ from these only where
it holds the lock. -/
def Tx.Keeps (G : D.Tables → D.Tables → Prop) :
    Tx D α → Set D.Key → List D.Write → D.Tables → Prop
  | .ret _, held, ws, t =>
    (∀ k ∉ held, part k (view t ws) = part k t) ∧ Inv (view t ws) ∧ G t (view t ws)
  | .stmt s next, held, ws, t =>
    ∀ n a ws', D.exec s (view t ws) n = some (a, ws') →
      ∀ t', Inv t' → Same part (held ∪ {k | D.lock s (view t ws) = some k}) t t' →
        (next a).Keeps G (held ∪ {k | D.lock s (view t ws) = some k}) (ws ++ ws') t'

/-- Every transaction of the call, started on tables that satisfy `Inv`, keeps them so. -/
def Call.Keeps (G : D.Tables → D.Tables → Prop) : Call D N β → Prop
  | .ret _ => True
  | .transaction tx k => (∀ t, Inv t → tx.Keeps part Inv G ∅ [] t) ∧ ∀ a, (k a).Keeps G
  | .notify _ k => k.Keeps G

/-- The transaction keeps its promise from every state that others may still bring about. -/
def Stable (G : D.Tables → D.Tables → Prop) (tx : Tx D α) (held : Set D.Key)
    (ws : List D.Write) (t : D.Tables) : Prop :=
  ∀ t', Inv t' → Same part held t t' → tx.Keeps part Inv G held ws t'

variable (G : Op → D.Tables → D.Tables → Prop)

def Client.Promise (held : Set D.Key) (t : D.Tables) : Client D N Op → Prop
  | .idle => held = ∅
  | .calling op c => held = ∅ ∧ c.Keeps part Inv (G op)
  | .inTx op tx ws k => Stable part Inv (G op) tx held ws t ∧ ∀ a, (k a).Keeps part Inv (G op)

def State.held (s : State D N Op) (i : ℕ) : Set D.Key := {k | (k, i) ∈ s.locks}

structure State.Sound (s : State D N Op) : Prop where
  tables : Inv s.tables
  exclusive : ∀ k i j, (k, i) ∈ s.locks → (k, j) ∈ s.locks → i = j
  client : ∀ i, (s.clients i).Promise part Inv G (s.held i) s.tables

/-- A step either leaves the tables alone or commits a transaction of the client's operation. -/
def Commits (a : Action Op) (s t : State D N Op) : Prop :=
  t.tables = s.tables ∨
    ∃ i op, a = .advance i ∧ (s.clients i).operation = some op ∧ G op s.tables t.tables

variable {part Inv G}

theorem Client.Promise.congr {held held' : Set D.Key} {t t' : D.Tables} {c : Client D N Op}
    (h : c.Promise part Inv G held t) (hheld : held' = held) (hsame : Same part held t t') :
    c.Promise part Inv G held' t' := by
  subst hheld
  cases c with
  | idle => exact h
  | calling op c => exact h
  | inTx op tx ws k => exact ⟨fun t'' hI hS => h.1 t'' hI (hsame.trans hS), h.2⟩

namespace State

variable {s : State D N Op} {i j : ℕ}

theorem mem_release {k : D.Key} : (k, j) ∈ s.release i ↔ (k, j) ∈ s.locks ∧ j ≠ i := by
  simp [release]

theorem mem_acquire {k : D.Key} {o : Option D.Key} :
    (k, j) ∈ s.acquire i o ↔ (o = some k ∧ j = i) ∨ (k, j) ∈ s.locks := by
  cases o with
  | none => simp [acquire]
  | some l => simp [acquire, eq_comm]

theorem not_mem_of_free {k : D.Key} (h : s.free i k = true) (hj : (k, j) ∈ s.locks) : j = i := by
  have := List.all_eq_true.mp h _ hj
  simpa using this

/-- The clients other than `i` keep their promises when a step of `i` leaves them and their locks
alone and the tables the same where they hold locks. -/
theorem Sound.client_of_ne {s' : State D N Op} (h : s.Sound part Inv G)
    (hc : s'.clients j = s.clients j) (hl : ∀ k, (k, j) ∈ s'.locks ↔ (k, j) ∈ s.locks)
    (ht : Same part (s.held j) s.tables s'.tables) :
    (s'.clients j).Promise part Inv G (s'.held j) s'.tables := by
  rw [hc]
  exact (h.client j).congr (Set.ext hl) ht

/-- A step of client `i` that leaves the locks and the tables alone. -/
theorem Sound.setClient (h : s.Sound part Inv G) {c : Client D N Op} {l : List N}
    (hc : c.Promise part Inv G (s.held i) s.tables) :
    ({ s.setClient i c with notified := l } : State D N Op).Sound part Inv G where
  tables := h.tables
  exclusive := h.exclusive
  client j := by
    by_cases hj : j = i
    · subst hj
      simpa [State.setClient, State.held] using hc
    · apply h.client_of_ne
      · simp [State.setClient, hj]
      · exact fun k => Iff.rfl
      · exact Same.refl _ _

theorem Sound.rollback (h : s.Sound part Inv G) : (s.rollback i).Sound part Inv G where
  tables := h.tables
  exclusive k a b ha hb := h.exclusive k a b (mem_release.mp ha).1 (mem_release.mp hb).1
  client j := by
    by_cases hj : j = i
    · subst hj
      have hheld : (s.rollback j).held j = ∅ := by
        ext k
        simp [State.held, State.rollback, mem_release]
      simpa [State.rollback, State.setClient, Client.Promise] using hheld
    · apply h.client_of_ne
      · simp [State.rollback, State.setClient, hj]
      · intro k
        simp [State.rollback, mem_release, hj]
      · exact Same.refl _ _

/-- A commit changes the tables only where `i` holds the locks, hence nowhere another client
does. -/
theorem Sound.commit {op : Op} {a : α} {ws : List D.Write} {k : α → Call D N β}
    (h : s.Sound part Inv G) (hc : s.clients i = .inTx op (.ret a) ws k) :
    ({ s.setClient i (.calling op (k a)) with
        tables := view s.tables ws, locks := s.release i } : State D N Op).Sound part Inv G ∧
      G op s.tables (view s.tables ws) := by
  have hi := h.client i
  rw [hc] at hi
  obtain ⟨hstable, hk⟩ := hi
  obtain ⟨hpart, hInv, hG⟩ := hstable s.tables h.tables (Same.refl _ _)
  refine ⟨⟨hInv, ?_, ?_⟩, hG⟩
  · exact fun k a b ha hb => h.exclusive k a b (mem_release.mp ha).1 (mem_release.mp hb).1
  · intro j
    by_cases hj : j = i
    · subst hj
      have hheld : {k | (k, j) ∈ s.release j} = ∅ := by
        ext k
        simp [mem_release]
      simpa [State.setClient, Client.Promise, State.held, hheld] using hk a
    · apply h.client_of_ne
      · simp [State.setClient, hj]
      · intro k
        simp [mem_release, hj]
      · intro k hkj
        exact hpart k fun hki => hj (h.exclusive k j i hkj hki)

theorem Sound.statement {op : Op} {γ : Type} {q : D.Stmt γ} {next : γ → Tx D α}
    {ws ws' : List D.Write} {k : α → Call D N β} {a : γ} {n : ℕ} (h : s.Sound part Inv G)
    (hc : s.clients i = .inTx op (.stmt q next) ws k)
    (hfree : (D.lock q (view s.tables ws)).all (s.free i) = true)
    (he : D.exec q (view s.tables ws) s.next = some (a, ws')) :
    ({ s.setClient i (.inTx op (next a) (ws ++ ws') k) with
        next := n, locks := s.acquire i (D.lock q (view s.tables ws)) } : State D N Op).Sound
      part Inv G := by
  have hi := h.client i
  rw [hc] at hi
  obtain ⟨hstable, hk⟩ := hi
  have hown : ∀ k j, D.lock q (view s.tables ws) = some k → (k, j) ∈ s.locks → j = i := by
    intro k j hl hj
    rw [hl] at hfree
    exact not_mem_of_free hfree hj
  refine ⟨h.tables, ?_, ?_⟩
  · intro k a b ha hb
    obtain ⟨hla, rfl⟩ | ha' := mem_acquire.mp ha <;> obtain ⟨hlb, rfl⟩ | hb' := mem_acquire.mp hb
    · rfl
    · exact (hown k b hla hb').symm
    · exact hown k a hlb ha'
    · exact h.exclusive k a b ha' hb'
  · intro j
    by_cases hj : j = i
    · subst hj
      have hheld : {k | (k, j) ∈ s.acquire j (D.lock q (view s.tables ws))} =
          s.held j ∪ {k | D.lock q (view s.tables ws) = some k} := by
        ext k
        simp [mem_acquire, State.held, or_comm]
      simp only [State.setClient, Function.update_self, Client.Promise, State.held, hheld]
      refine ⟨?_, hk⟩
      intro t' hI hS
      exact hstable s.tables h.tables (Same.refl _ _) s.next a ws' he t' hI hS
    · apply h.client_of_ne
      · simp [State.setClient, hj]
      · intro k
        simp [mem_acquire, hj]
      · exact Same.refl _ _

variable {program : Op → Σ β : Type, Call D N β}

theorem Sound.advanceTx {op : Op} {tx : Tx D α} {ws : List D.Write} {k : α → Call D N β}
    {s' : State D N Op} (h : s.Sound part Inv G) (hc : s.clients i = .inTx op tx ws k)
    (hs : s.advanceTx i op tx ws k = some s') :
    s'.Sound part Inv G ∧ Commits G (.advance i) s s' := by
  cases tx with
  | ret a =>
    obtain rfl := Option.some.inj hs
    obtain ⟨hsound, hG⟩ := h.commit hc
    exact ⟨hsound, .inr ⟨i, op, rfl, by rw [hc]; rfl, hG⟩⟩
  | stmt q next =>
    simp only [State.advanceTx] at hs
    split at hs
    next hfree =>
      split at hs
      next =>
        obtain rfl := Option.some.inj hs
        exact ⟨h.rollback, .inl rfl⟩
      next a ws' he =>
        obtain rfl := Option.some.inj hs
        exact ⟨h.statement hc hfree he, .inl rfl⟩
    next => cases hs

theorem Sound.advanceCall {op : Op} {c : Call D N β} (h : s.Sound part Inv G)
    (hc : s.clients i = .calling op c) :
    (s.advanceCall i op c).Sound part Inv G ∧ Commits G (.advance i) s (s.advanceCall i op c) := by
  have hi := h.client i
  rw [hc] at hi
  obtain ⟨hheld, hk⟩ := hi
  cases c with
  | ret b => exact ⟨h.setClient hheld, .inl rfl⟩
  | transaction tx k =>
    refine ⟨h.setClient ⟨?_, hk.2⟩, .inl rfl⟩
    intro t' hI hS
    rw [hheld]
    exact hk.1 t' hI
  | notify n k => exact ⟨h.setClient ⟨hheld, hk⟩, .inl rfl⟩

theorem Sound.step {a : Action Op} {s' : State D N Op}
    (hprogram : ∀ op, (program op).2.Keeps part Inv (G op)) (h : s.Sound part Inv G)
    (hs : s.step program a = some s') : s'.Sound part Inv G ∧ Commits G a s s' := by
  cases a with
  | call i op =>
    simp only [State.step] at hs
    split at hs
    next hidle =>
      obtain rfl := Option.some.inj hs
      have hi := h.client i
      rw [hidle] at hi
      exact ⟨h.setClient ⟨hi, hprogram op⟩, .inl rfl⟩
    next => cases hs
  | advance i =>
    simp only [State.step] at hs
    split at hs
    next => cases hs
    next op c hc =>
      obtain rfl := Option.some.inj hs
      exact h.advanceCall hc
    next op tx ws k hc => exact h.advanceTx hc hs
  | abort i =>
    obtain rfl := Option.some.inj hs
    exact ⟨h.rollback, .inl rfl⟩

end State

/-- The rule for machines whose programs keep `Inv`: every reachable state is sound. -/
theorem sound_of_reachable {t₀ : D.Tables} {program : Op → Σ β : Type, Call D N β}
    {ok : State D N Op → Action Op → Prop} {s : State D N Op} (h₀ : Inv t₀)
    (hprogram : ∀ op, (program op).2.Keeps part Inv (G op))
    (h : (machine t₀ program).Reachable ok s) : s.Sound part Inv G := by
  apply Machine.Reachable.invariant _ _ h
  · rintro s rfl
    refine ⟨h₀, ?_, ?_⟩
    · intro k i j hi
      cases hi
    · intro i
      exact Set.eq_empty_iff_forall_notMem.mpr fun k hk => by cases hk
  · intro s a t hs _ hst
    exact (hs.step hprogram hst).1

/-- Every step from a reachable state leaves the tables alone or commits. -/
theorem commits_of_step {t₀ : D.Tables} {program : Op → Σ β : Type, Call D N β}
    {ok : State D N Op → Action Op → Prop} {s s' : State D N Op} {a : Action Op} (h₀ : Inv t₀)
    (hprogram : ∀ op, (program op).2.Keeps part Inv (G op))
    (h : (machine t₀ program).Reachable ok s) (hs : (machine t₀ program).step s a = some s') :
    Commits G a s s' :=
  ((sound_of_reachable h₀ hprogram h).step hprogram hs).2

end Keeps

end Ark.ReadCommitted
