import Mcutt.Bytes

/-!
# Encoders

An encoder of the crate is generic over the writer and never looks at it but through `write_all`,
so it is a program of `write_all` calls (`Enc`), which `Enc.run` executes on any writer.  On a
writer that never fails the program leaves its `output` and ends with its `result`
(`Enc.run_sink`).  `Writes`, `Rejects` and `Checks` say how an encoder ends, and compose.
-/

namespace Mcutt

/-! ## Writers -/

/-- `std::io::Write`, as far as the crate uses it. -/
class Write (W : Type) where
  writeAll : List UInt8 → W → Except IoErrorKind Unit × W
  flush : W → Except IoErrorKind Unit × W

/-- A writer that never fails and keeps what is written to it, such as a `Vec<u8>`. -/
class Sink (W : Type) extends Write W where
  written : W → List UInt8
  writeAll_ok : ∀ bs w, (writeAll bs w).1 = .ok ()
  written_writeAll : ∀ bs w, written (writeAll bs w).2 = written w ++ bs

/-- `impl Write for Vec<u8>`. -/
instance : Sink (List UInt8) where
  writeAll bs w := (.ok (), w ++ bs)
  flush w := (.ok (), w)
  written w := w
  writeAll_ok _ _ := rfl
  written_writeAll _ _ := rfl

/-! ## Encoders -/

/-- An encoder: what it writes, each `write_all` with the text of the error its failure is
reported by, and how it ends. -/
inductive Enc (α : Type) where
  | done (r : Exec α)
  | write (bytes : List UInt8) (msg : String) (next : Enc α)

namespace Enc

variable {α β : Type}

protected def bind : Enc α → (α → Enc β) → Enc β
  | done (.ok a), f => f a
  | done (.error e), _ => done (.error e)
  | write bs msg next, f => write bs msg (next.bind f)

instance : Monad Enc where
  pure a := done (.ok a)
  bind := Enc.bind

instance : MonadLift Exec Enc := ⟨done⟩

/-- `writer.write_all(bytes).map_err(|error| Error::new(ErrorKind::StdIo(error.kind()), msg))`. -/
def writeAll (bytes : List UInt8) (msg : String) : Enc Unit := write bytes msg (done (.ok ()))

/-- `….map_err(|error| Error::new(error.kind(), msg))` on an encoder. -/
def mapMsg (msg : String) : Enc α → Enc α
  | done (.error (.err e)) => done (.error (.err ⟨e.kind, msg⟩))
  | done r => done r
  | write bs _ next => write bs msg (next.mapMsg msg)

/-- Running an encoder on a writer: the first failing `write_all` ends it. -/
def run {W : Type} [Write W] : Enc α → W → Exec α × W
  | done r, w => (r, w)
  | write bs msg next, w =>
    match Write.writeAll bs w with
    | (.ok (), w') => next.run w'
    | (.error kind, w') => (fail (.stdIo kind) msg, w')

/-- How the encoder ends when no `write_all` fails. -/
def result : Enc α → Exec α
  | done r => r
  | write _ _ next => next.result

/-- What the encoder has written when no `write_all` fails. -/
def output : Enc α → List UInt8
  | done _ => []
  | write bs _ next => bs ++ next.output

/-- The `write_all` calls of the encoder when none fails. -/
def writes : Enc α → List (List UInt8)
  | done _ => []
  | write bs _ next => bs :: next.writes

theorem flatten_writes (e : Enc α) : e.writes.flatten = e.output := by
  induction e with
  | done r => rfl
  | write bs msg next ih =>
    rw [writes, List.flatten_cons, ih]
    rfl

theorem run_sink {W : Type} [Sink W] (e : Enc α) (w : W) :
    (e.run w).1 = e.result ∧ Sink.written (e.run w).2 = Sink.written w ++ e.output := by
  induction e generalizing w with
  | done r => simp [run, result, output]
  | write bs msg next ih =>
    have hok := Sink.writeAll_ok bs w
    have happ := Sink.written_writeAll bs w
    cases h : Write.writeAll bs w with
    | mk r w' =>
      rw [h] at hok happ
      obtain rfl : r = .ok () := hok
      simp only [run, h, result, output]
      refine ⟨(ih w').1, ?_⟩
      rw [(ih w').2, happ, List.append_assoc]

/-- On a writer that never fails the encoder makes its `write_all` calls one after the other. -/
theorem run_eq_foldl {W : Type} [Sink W] (e : Enc α) (w : W) :
    (e.run w).2 = e.writes.foldl (fun w bs => (Write.writeAll bs w).2) w := by
  induction e generalizing w with
  | done r => rfl
  | write bs msg next ih =>
    have hok := Sink.writeAll_ok bs w
    cases h : Write.writeAll bs w with
    | mk r w' =>
      rw [h] at hok
      obtain rfl : r = .ok () := hok
      simp only [run, h, writes, List.foldl_cons]
      exact ih w'

/-- Running an encoder on a `Vec<u8>`. -/
theorem run_vec (e : Enc α) (w : List UInt8) : e.run w = (e.result, w ++ e.output) := by
  obtain ⟨hresult, hout⟩ := e.run_sink w
  exact Prod.ext hresult hout

/-- Running an encoder on an empty `Vec<u8>`. -/
theorem run_nil (e : Enc α) : e.run ([] : List UInt8) = (e.result, e.output) := e.run_vec []

theorem of_run_nil {e : Enc α} {r : Exec α} {out : List UInt8}
    (h : e.run ([] : List UInt8) = (r, out)) : e.result = r ∧ e.output = out := by
  rw [run_nil] at h
  exact Prod.mk.inj h

@[simp]
theorem result_bind (e : Enc α) (f : α → Enc β) :
    (e >>= f).result = e.result >>= fun a => (f a).result := by
  induction e with
  | done r => cases r <;> rfl
  | write bs msg next ih => exact ih

theorem output_bind (e : Enc α) (f : α → Enc β) :
    (e >>= f).output = e.output ++ (match e.result with
      | .ok a => (f a).output
      | .error _ => []) := by
  induction e with
  | done r => cases r <;> rfl
  | write bs msg next ih =>
    show bs ++ (next >>= f).output = (bs ++ next.output) ++ _
    rw [ih, List.append_assoc]
    rfl

theorem writes_bind (e : Enc α) (f : α → Enc β) :
    (e >>= f).writes = e.writes ++ (match e.result with
      | .ok a => (f a).writes
      | .error _ => []) := by
  induction e with
  | done r => cases r <;> rfl
  | write bs msg next ih =>
    show bs :: (next >>= f).writes = (bs :: next.writes) ++ _
    rw [ih]
    rfl

@[simp] theorem result_lift (x : Exec α) : (liftM x : Enc α).result = x := rfl

@[simp] theorem output_writeAll (bs : List UInt8) (msg : String) :
    (writeAll bs msg).output = bs := by simp [writeAll, output]

@[simp]
theorem output_mapMsg (msg : String) (e : Enc α) : (e.mapMsg msg).output = e.output := by
  induction e with
  | done r => rcases r with (_ | _) | _ <;> rfl
  | write bs m next ih => simp [mapMsg, output, ih]

/-- The encoder ends well with the value `a`, having written `bs`. -/
structure Writes (e : Enc α) (a : α) (bs : List UInt8) : Prop where
  result_eq : e.result = .ok a
  output_eq : e.output = bs

/-- The encoder ends with an error, having written nothing. -/
structure Rejects (e : Enc α) : Prop where
  result_err : ∃ err, e.result = .error (.err err)
  output_nil : e.output = []

theorem Writes.run_nil {e : Enc α} {a : α} {bs : List UInt8} (h : e.Writes a bs) :
    e.run ([] : List UInt8) = (.ok a, bs) := by
  rw [Enc.run_nil, h.result_eq, h.output_eq]

theorem Writes.run_vec {e : Enc α} {a : α} {bs : List UInt8} (h : e.Writes a bs)
    (w : List UInt8) : e.run w = (.ok a, w ++ bs) := by
  rw [Enc.run_vec, h.result_eq, h.output_eq]

theorem Writes.bind {e : Enc α} {f : α → Enc β} {a : α} {b : β} {bs cs : List UInt8}
    (he : e.Writes a bs) (hf : (f a).Writes b cs) : (e >>= f).Writes b (bs ++ cs) := by
  refine ⟨?_, ?_⟩
  · rw [result_bind, he.result_eq, ok_bind, hf.result_eq]
  · rw [output_bind, he.result_eq, he.output_eq]
    exact congrArg (bs ++ ·) hf.output_eq

/-- Nothing written before an encoder that rejects. -/
theorem Writes.bind_rejects {e : Enc α} {f : α → Enc β} {a : α} (he : e.Writes a [])
    (hf : (f a).Rejects) : (e >>= f).Rejects := by
  obtain ⟨err, herr⟩ := hf.result_err
  refine ⟨⟨err, ?_⟩, ?_⟩
  · rw [result_bind, he.result_eq, ok_bind, herr]
  · rw [output_bind, he.result_eq, he.output_eq]
    exact hf.output_nil

theorem Rejects.bind {e : Enc α} (he : e.Rejects) (f : α → Enc β) : (e >>= f).Rejects := by
  obtain ⟨err, herr⟩ := he.result_err
  refine ⟨⟨err, ?_⟩, ?_⟩
  · rw [result_bind, herr, error_bind]
  · rw [output_bind, herr, he.output_nil]
    rfl

theorem rejects_lift {x : Exec α} {e : Error} (h : x = .error (.err e)) :
    (liftM x : Enc α).Rejects := ⟨⟨e, h⟩, rfl⟩

theorem Writes.mapMsg {e : Enc α} {a : α} {bs : List UInt8} (h : e.Writes a bs) (msg : String) :
    (e.mapMsg msg).Writes a bs := by
  refine ⟨?_, by rw [output_mapMsg, h.output_eq]⟩
  have := h.result_eq
  clear h
  induction e with
  | done r => rw [show r = .ok a from this]; rfl
  | write bs m next ih => exact ih this

theorem Rejects.mapMsg {e : Enc α} (h : e.Rejects) (msg : String) : (e.mapMsg msg).Rejects := by
  refine ⟨?_, by rw [output_mapMsg, h.output_nil]⟩
  obtain ⟨err, herr⟩ := h.result_err
  clear h
  induction e with
  | done r =>
    rw [show r = .error (.err err) from herr]
    exact ⟨_, rfl⟩
  | write bs m next ih => exact ih herr

theorem Writes.congr {e : Enc α} {a : α} {bs cs : List UInt8} (h : e.Writes a bs)
    (hbs : bs = cs) : e.Writes a cs := hbs ▸ h

theorem writes_pure (a : α) : (pure a : Enc α).Writes a [] := ⟨rfl, rfl⟩

theorem writes_lift {x : Exec α} {a : α} (h : x = .ok a) : (liftM x : Enc α).Writes a [] :=
  ⟨h, rfl⟩

theorem writes_writeAll (bs : List UInt8) (msg : String) : (writeAll bs msg).Writes () bs :=
  ⟨rfl, output_writeAll bs msg⟩

/-- The encoder accepts the values with `P`, writing `bs`, and ends with an error on all others. -/
structure Checks (e : Enc α) (P : Prop) (a : α) (bs : List UInt8) : Prop where
  writes : P → e.Writes a bs
  fails : ¬ P → ∃ err, e.result = .error (.err err)

theorem Writes.checks {e : Enc α} {a : α} {bs : List UInt8} (h : e.Writes a bs) :
    e.Checks True a bs := ⟨fun _ => h, fun hn => absurd trivial hn⟩

theorem checks_of {e : Enc α} {P : Prop} {a : α} {bs : List UInt8} (hw : P → e.Writes a bs)
    (hr : ¬ P → e.Rejects) : e.Checks P a bs := ⟨hw, fun hn => (hr hn).result_err⟩

theorem Checks.bind {e : Enc α} {f : α → Enc β} {P Q : Prop} {a : α} {b : β} {bs cs : List UInt8}
    (he : e.Checks P a bs) (hf : (f a).Checks Q b cs) :
    (e >>= f).Checks (P ∧ Q) b (bs ++ cs) := by
  refine ⟨fun ⟨hP, hQ⟩ => (he.writes hP).bind (hf.writes hQ), fun hn => ?_⟩
  by_cases hP : P
  · obtain ⟨err, herr⟩ := hf.fails fun hQ => hn ⟨hP, hQ⟩
    exact ⟨err, by rw [result_bind, (he.writes hP).result_eq, ok_bind, herr]⟩
  · obtain ⟨err, herr⟩ := he.fails hP
    exact ⟨err, by rw [result_bind, herr, error_bind]⟩

theorem Checks.congr {e : Enc α} {P Q : Prop} {a b : α} {bs cs : List UInt8}
    (h : e.Checks P a bs) (hPQ : P ↔ Q) (hab : a = b) (hbs : bs = cs) : e.Checks Q b cs := by
  subst hab hbs
  exact ⟨fun hQ => h.writes (hPQ.2 hQ), fun hn => h.fails fun hP => hn (hPQ.1 hP)⟩

theorem Checks.map {e : Enc α} {P : Prop} {a : α} {bs : List UInt8} (h : e.Checks P a bs)
    (g : α → β) : (e >>= fun x => pure (g x)).Checks P (g a) bs := by
  have last : (pure (g a) : Enc β).Checks True (g a) [] := (writes_pure _).checks
  exact (Checks.bind (f := fun x => pure (g x)) h last).congr (iff_of_eq (and_true P)) rfl
    (List.append_nil _)

/-- An encoder that ended well had an accepted value. -/
theorem Checks.of_ok {e : Enc α} {P : Prop} {a b : α} {bs : List UInt8} (h : e.Checks P a bs)
    (hok : e.result = .ok b) : P ∧ b = a ∧ e.output = bs := by
  by_cases hP : P
  · have hw := h.writes hP
    rw [hw.result_eq] at hok
    exact ⟨hP, (Except.ok.inj hok).symm, hw.output_eq⟩
  · obtain ⟨err, herr⟩ := h.fails hP
    rw [herr] at hok
    cases hok

/-- The encoder makes this `write_all` first, or rejects its value before any. -/
def Opens (e : Enc α) (bs : List UInt8) : Prop :=
  (∃ err, e = done (.error err)) ∨ ∃ rest, e.writes = bs :: rest

theorem opens_writeAll_bind (bs : List UInt8) (msg : String) (f : Unit → Enc β) :
    (writeAll bs msg >>= f).Opens bs := .inr ⟨_, rfl⟩

theorem Opens.bind {e : Enc α} {bs : List UInt8} (h : e.Opens bs) (f : α → Enc β) :
    (e >>= f).Opens bs := by
  rcases h with ⟨err, rfl⟩ | ⟨rest, hrest⟩
  · exact .inl ⟨err, rfl⟩
  · right
    rw [writes_bind, hrest]
    exact ⟨_, rfl⟩

theorem opens_lift_bind {x : Exec α} {f : α → Enc β} {bs : List UInt8}
    (hf : ∀ a, x = .ok a → (f a).Opens bs) : ((liftM x : Enc α) >>= f).Opens bs := by
  cases x with
  | ok a => exact hf a rfl
  | error err => exact .inl ⟨err, rfl⟩

theorem Opens.starts {e : Enc α} {bs : List UInt8} (h : e.Opens bs) {a : α}
    (hok : e.result = .ok a) : ∃ rest, e.writes = bs :: rest := by
  apply h.resolve_left
  rintro ⟨err, rfl⟩
  cases hok

/-! ### Repetition -/

/-- `if let Some(a) = o { written += f(a)? }`. -/
def opt (o : Option α) (f : α → Enc ℕ) : Enc ℕ :=
  match o with
  | some a => f a
  | none => pure 0

/-- `items.try_fold(acc, |acc, item| f(item).map(|written| acc + written))`. -/
def sum (items : List α) (f : α → Enc ℕ) (acc : ℕ) : Enc ℕ :=
  items.foldlM (fun acc item => do
    let written ← f item
    pure (acc + written)) acc

theorem checks_opt {f : α → Enc ℕ} {P : α → Prop} {wire : α → List UInt8}
    (hf : ∀ a, (f a).Checks (P a) (wire a).length (wire a)) (o : Option α) :
    (opt o f).Checks (∀ a ∈ o, P a) (o.elim [] wire).length (o.elim [] wire) := by
  cases o with
  | none => exact (writes_pure 0).checks.congr (by simp) rfl rfl
  | some a => exact (hf a).congr (by simp) rfl rfl

theorem checks_sum {f : α → Enc ℕ} {P : α → Prop} {wire : α → List UInt8}
    (hf : ∀ a, (f a).Checks (P a) (wire a).length (wire a)) (items : List α) (acc : ℕ) :
    (sum items f acc).Checks (∀ a ∈ items, P a) (acc + (items.flatMap wire).length)
      (items.flatMap wire) := by
  induction items generalizing acc with
  | nil => exact (writes_pure acc).checks.congr (by simp) (by simp) rfl
  | cons a items ih =>
    refine (((hf a).map fun written => acc + written).bind (ih _)).congr (by simp) ?_ (by simp)
    rw [List.flatMap_cons, List.length_append]
    omega

/-! ### Rejection without a trace -/

/-- If the encoder ends with an error, a writer that never fails is left as it was. -/
def Untouched (e : Enc α) : Prop :=
  ∀ (W : Type) [Sink W] (w : W) (err : Error), (e.run w).1 = .error (.err err) →
    Sink.written (e.run w).2 = Sink.written w

theorem untouched_iff {e : Enc α} :
    e.Untouched ↔ ∀ err, e.result = .error (.err err) → e.output = [] := by
  constructor
  · intro h err herr
    have hrun := e.run_sink ([] : List UInt8)
    have := h (List UInt8) [] err (hrun.1.trans herr)
    rw [hrun.2] at this
    exact List.append_right_eq_self.1 this
  · intro h W _ w err herr
    have hrun := e.run_sink w
    rw [hrun.2, h err (hrun.1.symm.trans herr), List.append_nil]

theorem Rejects.untouched {e : Enc α} (h : e.Rejects) : e.Untouched :=
  untouched_iff.2 fun _ _ => h.output_nil

/-- Nothing is written by code that does not encode. -/
theorem untouched_lift_bind {x : Exec α} {f : α → Enc β} :
    ((liftM x : Enc α) >>= f).Untouched ↔ ∀ a, x = .ok a → (f a).Untouched := by
  cases x with
  | error e => exact iff_of_true (untouched_iff.2 fun _ _ => rfl) (by simp)
  | ok a => exact ⟨fun h b hb => Except.ok.inj hb ▸ h, fun h => h a rfl⟩

/-- Once something is written, only an accepted value leaves no trace. -/
theorem Writes.untouched_bind_iff {e : Enc α} {f : α → Enc β} {P : Prop} {a : α} {b : β}
    {bs cs : List UInt8} (he : e.Writes a bs) (hbs : bs ≠ []) (hf : (f a).Checks P b cs) :
    (e >>= f).Untouched ↔ P := by
  rw [untouched_iff]
  constructor
  · intro h
    by_contra hP
    obtain ⟨err, herr⟩ := hf.fails hP
    have := h err (by rw [result_bind, he.result_eq, ok_bind, herr])
    rw [output_bind, he.output_eq, List.append_eq_nil_iff] at this
    exact hbs this.1
  · intro hP err herr
    rw [result_bind, he.result_eq, ok_bind, (hf.writes hP).result_eq] at herr
    cases herr

end Enc

end Mcutt
