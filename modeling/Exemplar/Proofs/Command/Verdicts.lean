import Exemplar.Command.Run
import Exemplar.Proofs.Example.Outcome

/-!
# Verdicts of commands

Three places decide whether a command succeeds: `check` counts the errors among
all diagnostics, `tests` asks how the harvest ended, and the machine-readable
report counts for itself. They agree (`verdicts_agree`), because a harvest ends
as failed exactly when an error is among its diagnostics.

The common verdict is said once, without any output (`verdict`), and taken
apart once (`verdict_cases`). Each command that harvests is compared with it, in
every format.
-/

namespace Exemplar

/-! ## The common verdict -/

/-- The verdict on texts: the files compile, and their examples do not fail. -/
def verdict (settings : Settings) (sources : List (String × String)) :
    Except CommandError Bool :=
  match Host.compile sources with
  | .error why => .error (.workspace why)
  | .ok host =>
    if host.build.hasErrors then .ok false
    else ((host.build.program.harvest settings).map Harvest.succeeded).mapError
      .harvest

/-- The four ways to a verdict, in the order in which they are tried. -/
theorem verdict_cases (settings : Settings) (sources : List (String × String)) :
    (∃ why, Host.compile sources = .error why
        ∧ verdict settings sources = .error (.workspace why))
      ∨ (∃ host, Host.compile sources = .ok host ∧ host.build.hasErrors = true
        ∧ verdict settings sources = .ok false)
      ∨ (∃ host why, Host.compile sources = .ok host
        ∧ host.build.hasErrors = false
        ∧ settings.validate = .error why
        ∧ host.build.program.harvest settings = .error (.settings why)
        ∧ verdict settings sources = .error (.harvest (.settings why)))
      ∨ ∃ host h, Host.compile sources = .ok host ∧ host.build.hasErrors = false
        ∧ settings.validate = .ok ()
        ∧ host.build.program.harvest settings = .ok h
        ∧ verdict settings sources = .ok h.succeeded := by
  unfold verdict
  cases Host.compile sources with
  | error why => exact .inl ⟨why, rfl, rfl⟩
  | ok host =>
      cases herrors : host.build.hasErrors with
      | true => exact .inr (.inl ⟨host, rfl, herrors, if_pos herrors⟩)
      | false =>
          have hgoes : ¬host.build.hasErrors = true := by rw [herrors]; decide
          dsimp only
          rw [if_neg hgoes]
          cases hvalid : settings.validate with
          | error why =>
              have hrun := harvest_of_invalid hvalid host.build.program
              refine .inr (.inr (.inl ⟨host, why, rfl, herrors, rfl, hrun, ?_⟩))
              rw [hrun]
              rfl
          | ok =>
              have hrun := harvest_of_valid hvalid host.build.program
              refine .inr (.inr (.inr ⟨host, _, rfl, herrors, rfl, hrun, ?_⟩))
              rw [hrun]
              rfl

section Verdict

variable {settings : Settings} {sources : List (String × String)}

/-- The verdict is that of the build if it has errors, and else that of the
harvest. -/
theorem verdict_eq_ok_iff {good : Bool} :
    verdict settings sources = .ok good
      ↔ ∃ host, Host.compile sources = .ok host
        ∧ (host.build.hasErrors = true ∧ good = false
          ∨ host.build.hasErrors = false
            ∧ ∃ h, host.build.program.harvest settings = .ok h
              ∧ h.succeeded = good) := by
  obtain ⟨why, hcompile, hverdict⟩ | ⟨host, hcompile, herrors, hverdict⟩
    | ⟨host, why, hcompile, herrors, -, hrun, hverdict⟩
    | ⟨host, h, hcompile, herrors, -, hrun, hverdict⟩ :=
      verdict_cases settings sources
  · simp [hcompile, hverdict]
  · simp [hcompile, herrors, hverdict, eq_comm (a := false)]
  · simp [hcompile, herrors, hrun, hverdict]
  · simp [hcompile, herrors, hrun, hverdict]

/-- There is no verdict if the files are refused, or if they compile and the
settings are refused. -/
theorem verdict_eq_error_iff {e : CommandError} :
    verdict settings sources = .error e
      ↔ (∃ why, Host.compile sources = .error why
        ∧ CommandError.workspace why = e)
        ∨ ∃ host why, Host.compile sources = .ok host
          ∧ host.build.hasErrors = false
          ∧ settings.validate = .error why
          ∧ CommandError.harvest (.settings why) = e := by
  obtain ⟨why, hcompile, hverdict⟩ | ⟨host, hcompile, herrors, hverdict⟩
    | ⟨host, why, hcompile, herrors, hvalid, -, hverdict⟩
    | ⟨host, h, hcompile, herrors, hvalid, -, hverdict⟩ :=
      verdict_cases settings sources
  · simp [hcompile, hverdict]
  · simp [hcompile, herrors, hverdict]
  · simp [hcompile, herrors, hvalid, hverdict]
  · simp [hcompile, hvalid, hverdict]

end Verdict

/-! ## Commands that harvest -/

/-- How a harvest ended can be read off its diagnostics. -/
theorem Harvest.succeeded_eq {host : Program} {settings : Settings}
    {h : Harvest} (hrun : host.harvest settings = .ok h) :
    h.succeeded = !hasErrors h.diagnostics := by
  have hfailed := (harvested_outcome host settings).2.1
  rw [← eq_harvested_of_ok hrun] at hfailed
  rw [succeeded, bne, Bool.not_inj_iff, Bool.eq_iff_iff, beq_iff_eq]
  exact hfailed

section Command

variable {host : Host} {settings : Settings} {h : Harvest}

/-- `check` goes by all diagnostics, and prints nothing else for programs. -/
theorem exists_runCheck (hrun : host.build.program.harvest settings = .ok h)
    (format : OutputFormat) :
    ∃ result, Command.runCheck host settings format = .ok result
      ∧ result.succeeded = !hasErrors (host.build.diagnostics ++ h.diagnostics)
      ∧ (format = .json → result
        = .ofDiagnostics .json (host.build.diagnostics ++ h.diagnostics)
          (host.textsWith h.units) .check "Check") := by
  rw [Command.runCheck, hrun]
  have hsucceeded := CommandResult.succeeded_ofDiagnostics format
    (host.build.diagnostics ++ h.diagnostics) (host.textsWith h.units)
      .check "Check"
  cases format with
  | json => exact ⟨_, rfl, hsucceeded, fun _ => rfl⟩
  | text =>
      simp only [bind, Except.bind]
      split
      · exact ⟨_, rfl, hsucceeded, nofun⟩
      · exact ⟨_, rfl, hsucceeded, nofun⟩

theorem succeeded_runCheck (hclean : host.build.hasErrors = false)
    (settings : Settings) (format : OutputFormat) :
    (Command.runCheck host settings format).map CommandResult.succeeded
      = (host.build.program.harvest settings).map Harvest.succeeded := by
  cases hrun : host.build.program.harvest settings with
  | error why =>
      rw [Command.runCheck, hrun]
      rfl
  | ok h =>
      obtain ⟨result, hresult, hsucceeded, -⟩ := exists_runCheck hrun format
      rw [hasErrors_append, ← Build.hasErrors, hclean, Bool.false_or,
        ← Harvest.succeeded_eq hrun] at hsucceeded
      rw [hresult, Except.map, Except.map, hsucceeded]

theorem succeeded_runTests (host : Host) (settings : Settings)
    (format : OutputFormat) :
    (Command.runTests host settings format).map CommandResult.succeeded
      = (host.build.program.harvest settings).map Harvest.succeeded := by
  rw [Command.runTests]
  cases host.build.program.harvest settings with
  | error why => rfl
  | ok h =>
      simp only [bind, Except.bind, Except.map]
      cases h.succeeded <;> rfl

end Command

theorem map_mapError {ε ε' α β : Type} (f : ε → ε') (g : α → β)
    (x : Except ε α) :
    (x.mapError f).map g = (x.map g).mapError f := by
  cases x <;> rfl

/-- What a command does with files that do not compile. -/
theorem succeeded_perform_of_errors {host : Host}
    {sources : List (String × String)}
    (hcompile : Host.compile sources = .ok host)
    (herrors : host.build.hasErrors = true) (command : Command)
    (format : OutputFormat) (settings : Settings) :
    (command.perform format settings sources).map CommandResult.succeeded
      = .ok false := by
  rw [Command.perform, hcompile]
  dsimp only
  rw [if_pos herrors, Except.map, CommandResult.succeeded_ofDiagnostics,
    ← Build.hasErrors, herrors]
  rfl

/-- Whatever is printed, the verdict is the common one. -/
theorem succeeded_perform {command : Command} (hcommand : command ≠ .extract)
    (format : OutputFormat) (settings : Settings)
    (sources : List (String × String)) :
    (command.perform format settings sources).map CommandResult.succeeded
      = verdict settings sources := by
  cases hcompile : Host.compile sources with
  | error why =>
      rw [Command.perform, verdict, hcompile]
      rfl
  | ok host =>
      by_cases herrors : host.build.hasErrors = true
      · rw [succeeded_perform_of_errors hcompile herrors, verdict, hcompile]
        exact (if_pos herrors).symm
      · rw [Command.perform, verdict, hcompile]
        dsimp only
        rw [if_neg herrors, if_neg herrors]
        cases command with
        | extract => exact absurd rfl hcommand
        | check =>
            rw [map_mapError,
              succeeded_runCheck (Bool.eq_false_iff.mpr herrors)]
        | tests => rw [map_mapError, succeeded_runTests]

/-- `extract` asks for no more than files without errors. -/
theorem succeeded_extract_iff (format : OutputFormat) (settings : Settings)
    (sources : List (String × String)) :
    (Command.extract.perform format settings sources).map
      CommandResult.succeeded = .ok true
      ↔ ∃ host, Host.compile sources = .ok host
        ∧ host.build.hasErrors = false := by
  cases hcompile : Host.compile sources with
  | error why =>
      rw [Command.perform, hcompile]
      simp [Except.map]
  | ok host =>
      by_cases herrors : host.build.hasErrors = true
      · rw [succeeded_perform_of_errors hcompile herrors]
        simp [herrors]
      · rw [Command.perform, hcompile]
        dsimp only
        rw [if_neg herrors]
        simp [Except.map, Command.runExtract, herrors]

/-! ## The report for programs -/

def Json.field? (key : String) : Json → Option Json
  | .obj fields => fields.lookup key
  | _ => none

theorem field?_ofDiagnostics (format : OutputFormat) (ds : List Diagnostic)
    (texts : SourceTexts) (command : Command) (phase : String) :
    (Report.ofDiagnostics ds texts command.text).field? "success"
      = some (.bool (CommandResult.ofDiagnostics format ds texts command
        phase).succeeded) := rfl

/-- The output of `check` for programs is one report, on all diagnostics. -/
theorem exists_report_check {settings : Settings}
    {sources : List (String × String)} {result : CommandResult}
    (h : Command.perform .check .json settings sources = .ok result) :
    ∃ ds texts phase, result = .ofDiagnostics .json ds texts .check phase := by
  rw [Command.perform] at h
  cases hcompile : Host.compile sources with
  | error why =>
      rw [hcompile] at h
      cases h
  | ok host =>
      rw [hcompile] at h
      dsimp only at h
      split at h
      · exact ⟨_, _, _, (Except.ok.inj h).symm⟩
      · cases hrun : host.build.program.harvest settings with
        | error why =>
            rw [Command.runCheck, hrun] at h
            cases h
        | ok harvest =>
            obtain ⟨result', hresult', -, hjson⟩ := exists_runCheck hrun .json
            rw [hresult'] at h
            obtain rfl := Except.ok.inj h
            exact ⟨_, _, _, hjson rfl⟩

/-! ## Requests -/

theorem succeeded_run (r : Request) (view : FileView)
    (hcommand : r.command ≠ .extract) :
    (r.run view).map CommandResult.succeeded
      = r.settings view >>= fun settings =>
      r.sources view >>= verdict settings := by
  rw [Request.run]
  cases r.settings view with
  | error why => rfl
  | ok settings =>
      cases r.sources view with
      | error why => rfl
      | ok sources => exact succeeded_perform hcommand r.format settings sources

/-- **The commands agree.** On all texts and under all settings, `check` and
`tests` have one verdict in all formats: they succeed exactly when the files
compile without errors and the examples do not fail, do not succeed when there
are errors or the examples fail, and otherwise give the same error, which is
that the files or the settings are refused. The report that `check` prints for
programs says whether it succeeded. `extract` succeeds exactly when the files
compile without errors. Requests for the same files with the same configuration
therefore end alike, whichever of the two commands and whatever format they ask
for. -/
theorem verdicts_agree (settings : Settings)
    (sources : List (String × String)) :
    let succeeded := fun (command : Command) format =>
      (command.perform format settings sources).map CommandResult.succeeded
    (∀ command ≠ Command.extract, ∀ format,
        (succeeded command format = .ok true
          ↔ ∃ host h, Host.compile sources = .ok host
            ∧ host.build.hasErrors = false
            ∧ host.build.program.harvest settings = .ok h ∧ h.status ≠ .failed)
        ∧ (succeeded command format = .ok false
          ↔ ∃ host, Host.compile sources = .ok host
            ∧ (host.build.hasErrors = true
            ∨ ∃ h, host.build.program.harvest settings = .ok h
              ∧ h.status = .failed))
        ∧ ∀ e, succeeded command format = .error e
          ↔ (∃ why, Host.compile sources = .error why
            ∧ CommandError.workspace why = e)
            ∨ ∃ host why, Host.compile sources = .ok host
              ∧ host.build.hasErrors = false
              ∧ settings.validate = .error why
              ∧ CommandError.harvest (.settings why) = e)
      ∧ (∀ format format', succeeded .check format = succeeded .tests format')
      ∧ (∀ result, Command.perform .check .json settings sources = .ok result →
          ∃ ds texts, result.output
            = Output.document (Report.ofDiagnostics ds texts "check")
            ∧ (Report.ofDiagnostics ds texts "check").field? "success"
              = some (.bool result.succeeded))
      ∧ (∀ format, succeeded .extract format = .ok true
          ↔ ∃ host, Host.compile sources = .ok host
            ∧ host.build.hasErrors = false)
      ∧ ∀ (view : FileView) (r r' : Request), r.files = r'.files →
      r.config = r'.config →
          r.command ≠ .extract → r'.command ≠ .extract →
          (r.run view).map CommandResult.succeeded
            = (r'.run view).map CommandResult.succeeded := by
  intro succeeded
  refine ⟨fun command hcommand format => ?_, fun format format' => ?_,
    fun result hresult => ?_,
    fun format => ?_, fun view r r' hfiles hconfig hr hr' => ?_⟩
  · have hverdict : succeeded command format = verdict settings sources :=
      succeeded_perform hcommand format settings sources
    rw [hverdict, verdict_eq_ok_iff, verdict_eq_ok_iff]
    refine ⟨exists_congr fun host => ?_, exists_congr fun host =>
      and_congr_right fun _ => ?_,
      fun e => verdict_eq_error_iff⟩
    · simp [Harvest.succeeded]
    · cases host.build.hasErrors <;> simp [Harvest.succeeded]
  · have hcheck : succeeded .check format = verdict settings sources :=
      succeeded_perform (by decide) format settings sources
    have htests : succeeded .tests format' = verdict settings sources :=
      succeeded_perform (by decide) format' settings sources
    rw [hcheck, htests]
  · obtain ⟨ds, texts, phase, rfl⟩ := exists_report_check hresult
    exact ⟨ds, texts, rfl, field?_ofDiagnostics .json ds texts .check phase⟩
  · exact succeeded_extract_iff format settings sources
  · rw [succeeded_run r view hr, succeeded_run r' view hr', Request.settings,
      Request.settings, Request.sources, Request.sources, hfiles, hconfig]

/-- A file with a character that is none: no command succeeds, and the report
says so. -/
theorem verdicts_agree_broken :
    let sources := [("a.vl", "?")]
    ∃ host result, Host.compile sources = .ok host ∧ host.build.hasErrors = true
      ∧ Command.perform .check .json {} sources = .ok result
      ∧ result.succeeded = false
      ∧ (∃ ds texts, result.output
        = Output.document (Report.ofDiagnostics ds texts "check")
        ∧ (Report.ofDiagnostics ds texts "check").field? "success"
          = some (.bool false))
      ∧ (Command.perform .tests .text {} sources).map CommandResult.succeeded
        = .ok false
      ∧ (Command.perform .extract .text {} sources).map CommandResult.succeeded
        ≠ .ok true := by
  intro sources
  have hbroken : (Host.compile sources).toOption.map (fun host =>
    host.build.hasErrors)
      = some true := by decide +kernel
  obtain ⟨hverdict, hagree, hreport, hextract, -⟩ := verdicts_agree {} sources
  cases hcompile : Host.compile sources with
  | error why =>
      rw [hcompile] at hbroken
      cases hbroken
  | ok host =>
      rw [hcompile] at hbroken
      have herrors : host.build.hasErrors = true := Option.some.inj hbroken
      have hcheck := (hverdict .check (by decide) .json).2.1.mpr ⟨host,
        hcompile, .inl herrors⟩
      have htests := (hagree .json .text).symm.trans hcheck
      have hextracts : (Command.perform .extract .text {} sources).map
        CommandResult.succeeded
          ≠ .ok true := by
        intro hok
        obtain ⟨host', hcompile', hclean⟩ := (hextract .text).mp hok
        obtain rfl := Except.ok.inj (hcompile.symm.trans hcompile')
        rw [herrors] at hclean
        cases hclean
      dsimp only at hcheck
      cases hresult : Command.perform .check .json {} sources with
      | error why =>
          rw [hresult] at hcheck
          cases hcheck
      | ok result =>
          rw [hresult] at hcheck
          have hfalse : result.succeeded = false := Except.ok.inj hcheck
          obtain ⟨ds, texts, houtput, hfield⟩ := hreport result hresult
          rw [hfalse] at hfield
          exact ⟨host, result, rfl, herrors, rfl, hfalse,
            ⟨ds, texts, houtput, hfield⟩, htests, hextracts⟩

end Exemplar
