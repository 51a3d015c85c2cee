import DurationCalculator.Proofs.Trace.Lines

/-!
# Calculations and their printers

A printer is told of one operation after the other, and each time it writes one line more or
nothing (`Printer.output_eq_foldl`). It only observes. The results of a session are those of its
expressions, each on its own and in spite of the errors of the others, whoever is told of their
operations; and what is written in all is what is written for each of them (`session_eq`). What is
written into a sink that takes nothing is lost, and changes nothing else (`session_lost`).
-/

set_option autoImplicit false

namespace DurationCalculator

/-! ## Printers -/

namespace Printer

/-- What has been written once a printer has been told of one operation more. -/
def tell (printer : Printer) (written : String) (o : Operation) : String :=
  match printer with
  | discard => written
  | print format => written ++ String.ofList (format.line o)
  | lost _ => written

theorem output_concat (printer : Printer) (trace : List Operation) (o : Operation) :
    printer.output (trace ++ [o]) = printer.tell (printer.output trace) o := by
  cases printer with
  | discard => rfl
  | print format =>
      simp only [output, tell, LineFormat.lines, List.flatMap_append, List.flatMap_singleton,
        String.ofList_append]
  | lost format => rfl

/-- A printer writes while an evaluation goes on, and keeps what it has written. -/
theorem output_eq_foldl (printer : Printer) (trace : List Operation) :
    printer.output trace = trace.foldl printer.tell "" := by
  induction trace using List.reverseRecOn with
  | nil => cases printer <;> rfl
  | append_singleton before o ih =>
      rw [output_concat, ih, List.foldl_append, List.foldl_cons, List.foldl_nil]

/-- Two traces, one after the other, are written one after the other. -/
theorem output_append (printer : Printer) (trace later : List Operation) :
    printer.output (trace ++ later) = printer.output trace ++ printer.output later := by
  cases printer with
  | discard => rfl
  | print format => simp only [output, LineFormat.lines, List.flatMap_append, String.ofList_append]
  | lost format => rfl

end Printer

/-! ## Calculations -/

section Calculate

variable {printer : Printer} {source : String}

/-- The printer has no part in the result. -/
theorem calculate_result (printer : Printer) (source : String) :
    (calculate printer source).result = requireDuration (evaluate source).result := rfl

/-- A calculation has a duration exactly if that is the value of its expression. -/
theorem calculate_result_eq_ok_iff {d : Duration} :
    (calculate printer source).result = .ok d ↔ (evaluate source).result = .ok (.duration d) := by
  rw [calculate_result]
  cases (evaluate source).result with
  | error e => simp [requireDuration]
  | ok value => cases value <;> simp [requireDuration, Value.asDuration, Except.mapError]

/-- It fails where its expression does, and where the value is an integer. -/
theorem calculate_result_eq_error_iff {e : Error} :
    (calculate printer source).result = .error e ↔
      (evaluate source).result = .error e ∨
        ∃ n, (evaluate source).result = .ok (.integer n) ∧
          e = .evaluation (.resultNotDuration n) := by
  rw [calculate_result]
  cases (evaluate source).result with
  | error e' => simp [requireDuration]
  | ok value =>
      cases value <;> simp [requireDuration, Value.asDuration, Except.mapError, eq_comm]

end Calculate

/-! ## Sessions -/

section Session

variable (printer : Printer)

theorem session_cons (source : String) (rest : List String) :
    session printer (source :: rest) =
      ((evaluate source).result :: (session printer rest).1,
        (calculate printer source).output ++ (session printer rest).2) := by
  have houtput := printer.output_append (evaluate source).trace
    ((rest.map evaluate).flatMap fun outcome => outcome.trace)
  exact Prod.ext rfl houtput

/-- A session yields what its expressions yield one by one. No error keeps a later expression from
being evaluated, and no expression changes what another one yields. -/
theorem session_eq (sources : List String) :
    session printer sources =
      (sources.map fun source => (evaluate source).result,
        String.join (sources.map fun source => (calculate printer source).output)) := by
  induction sources with
  | nil => cases printer <;> rfl
  | cons source rest ih =>
      rw [session_cons, ih, List.map_cons, List.map_cons, String.join_cons]

/-- A session can be split between any two expressions. -/
theorem session_append (sources later : List String) :
    session printer (sources ++ later) =
      ((session printer sources).1 ++ (session printer later).1,
        (session printer sources).2 ++ (session printer later).2) := by
  simp only [session_eq, List.map_append, String.join_append]

/-- A sink that takes nothing is as good as none, for sessions and for calculations. -/
theorem session_lost (format : LineFormat) (sources : List String) :
    session (.lost format) sources = session .discard sources ∧
      ∀ source ∈ sources, calculate (.lost format) source = calculate .discard source :=
  ⟨rfl, fun _ _ => rfl⟩

end Session

end DurationCalculator
