import ModuleSearch.CommandLine.Run
import ModuleSearch.Proofs.Catalog.Parts

/-!
# The commands agree

With the same options `list`, `find` and `describe` show the same modules, although `find` and
`describe` look no further than they need to: `commands_agree`. A catalog that can be listed answers
about a name from its listing (`Catalog.exists_modules_of_findAll`), and the arguments of the three
commands differ in nothing but the command and its operand (`ofArguments_named`).
-/

namespace ModuleSearch.CommandLine

/-! ## Arguments -/

section Arguments

variable {o before : Options} {waiting : Option Valued} {pre post rest : List String}
  {word name : String} {environment : Environment} {request : Request}

theorem ofText_operand (h : name.toList.head? ≠ some '-') : Argument.ofText name = .operand := by
  rw [Argument.ofText]
  split
  · rename_i hname
    simp [hname] at h
  · rename_i hname
    simp [hname] at h
  · rename_i hname
    simp [hname] at h
  · rfl

/-- Options that are complete are read in the same way when a command follows them. -/
theorem readBefore_append (hword : Argument.ofText word = .operand)
    (h : o.readBefore waiting pre = .ok (before, [])) :
    o.readBefore waiting (pre ++ word :: rest) = .ok (before, word :: rest) := by
  -- an option before may wait for its value, so the induction is for any that waits
  induction pre generalizing o waiting with
  | nil =>
      cases waiting with
      | some option => cases h
      | none =>
          obtain ⟨rfl, -⟩ := Prod.mk.inj (Except.ok.inj h)
          simp [Options.readBefore, hword]
  | cons text pre ih =>
      cases waiting with
      | some option =>
          simp only [List.cons_append, Options.readBefore] at h ⊢
          split at h
          · rename_i hvalue
            obtain ⟨o', hset, h⟩ := bind_eq_ok_iff.mp h
            rw [if_pos hvalue]
            exact bind_eq_ok_iff.mpr ⟨o', hset, ih h⟩
          · cases h
      | none =>
          simp only [List.cons_append, Options.readBefore] at h ⊢
          cases htext : Argument.ofText text with
          | terminator => simp [htext] at h
          | operand => simp [htext] at h
          | letters letters =>
              simp only [htext] at h ⊢
              obtain ⟨⟨o', waiting'⟩, hletters, h⟩ := bind_eq_ok_iff.mp h
              exact bind_eq_ok_iff.mpr ⟨_, hletters, ih h⟩
          | long name value =>
              simp only [htext] at h ⊢
              obtain ⟨⟨o', waiting'⟩, hlong, h⟩ := bind_eq_ok_iff.mp h
              exact bind_eq_ok_iff.mpr ⟨_, hlong, ih h⟩

theorem readAfter_operand (hname : Argument.ofText name = .operand) (room : Nat) :
    o.readAfter none (room + 1) (name :: rest) = (o.readAfter none room rest).map
      fun (after, operands) => (after, name :: operands) := by
  simp only [Options.readAfter, hname]
  cases o.readAfter none room rest <;> rfl

theorem ofText_command {count : Nat} (h : Command.operandCount? word = some count) :
    Argument.ofText word = .operand := by
  unfold Command.operandCount? at h
  split at h
  · decide
  · decide
  · decide
  · cases h

theorem ofArguments_eq_ok_iff (hbefore : ({} : Options).readBefore none pre = .ok (before, []))
    {count : Nat} (hword : Command.operandCount? word = some count) :
    Request.ofArguments environment (pre ++ word :: rest) = .ok request ↔
      ∃ after operands command, ({} : Options).readAfter none count rest = .ok (after, operands) ∧
        Command.ofOperands? word operands = some command ∧
        Request.ofOptions environment before after command = .ok request := by
  rw [Request.ofArguments, readBefore_append (ofText_command hword) hbefore]
  simp only [bind, Except.bind, hword]
  cases hafter : ({} : Options).readAfter none count rest with
  | error stop => simp
  | ok read =>
      obtain ⟨after, operands⟩ := read
      cases hcommand : Command.ofOperands? word operands with
      | none => simp [hcommand]
      | some command =>
          simp only [hcommand]
          constructor
          · exact fun h => ⟨after, operands, command, rfl, hcommand, h⟩
          · rintro ⟨_, _, _, hread, hother, h⟩
            obtain ⟨rfl, rfl⟩ := Prod.mk.inj (Except.ok.inj hread)
            obtain rfl := Option.some.inj (hcommand.symm.trans hother)
            exact h

theorem ofOptions_command {after : Options} {command other : Command}
    (h : Request.ofOptions environment before after command = .ok request) :
    Request.ofOptions environment before after other = .ok { request with command := other } := by
  rw [Request.ofOptions] at h ⊢
  split at h
  · rename_i hsuits
    rw [if_pos hsuits, ← Except.ok.inj h]
  · cases h

/-- The arguments of a listing ask for another command if the command and its operand are put in
the place of `list`. -/
theorem ofArguments_named (hbefore : ({} : Options).readBefore none pre = .ok (before, []))
    (hlist : Request.ofArguments environment (pre ++ "list" :: post) = .ok request)
    (hname : Argument.ofText name = .operand) {command : Command}
    (hcount : Command.operandCount? word = some 1)
    (hcommand : Command.ofOperands? word [name] = some command) :
    Request.ofArguments environment (pre ++ word :: name :: post) =
      .ok { request with command := command } := by
  obtain ⟨after, operands, listing, hafter, hlisting, hoptions⟩ :=
    (ofArguments_eq_ok_iff hbefore rfl).mp hlist
  cases operands with
  | cons operand operands => cases hlisting
  | nil =>
      refine (ofArguments_eq_ok_iff hbefore hcount).mpr
        ⟨after, [name], command, ?_, hcommand, ofOptions_command hoptions⟩
      rw [readAfter_operand hname, hafter]
      rfl

theorem command_of_list (hbefore : ({} : Options).readBefore none pre = .ok (before, []))
    (hlist : Request.ofArguments environment (pre ++ "list" :: post) = .ok request) :
    request.command = .list := by
  obtain ⟨after, operands, listing, -, hlisting, hoptions⟩ :=
    (ofArguments_eq_ok_iff hbefore rfl).mp hlist
  have hrequest := hoptions.symm.trans (ofOptions_command hoptions)
  rw [Except.ok.inj hrequest]
  cases operands with
  | cons operand operands => cases hlisting
  | nil => exact (Option.some.inj hlisting).symm

end Arguments

/-! ## Answers -/

section Answers

variable {s : Surroundings} {workingDirectory : Path} {c : Catalog}
  {modules : List LocatedModule} {modulePath home : Option String} {name : String}

/-- A module path, an installation, or both are searched, the module path first. -/
theorem catalogOf_cases {storage : Storage} (h : catalogOf storage modulePath home = .ok c) :
    (∃ text, modulePath = some text ∧ home = none ∧
        c = .ofEntries (Request.entriesOf text)) ∨
      (∃ text, modulePath = none ∧ home = some text ∧
        Installation.catalog storage Installation.permitsAll ⟨text⟩ = .ok c) ∨
      ∃ text root installed, modulePath = some text ∧ home = some root ∧
        Installation.catalog storage Installation.permitsAll ⟨root⟩ = .ok installed ∧
        c = (Catalog.ofEntries (Request.entriesOf text)).append installed := by
  obtain ⟨installed, hinstalled, h⟩ := bind_eq_ok_iff.mp h
  cases home with
  | none =>
      obtain rfl : none = installed := Except.ok.inj hinstalled
      cases modulePath with
      | none => cases h
      | some text => exact .inl ⟨text, rfl, rfl, (Except.ok.inj h).symm⟩
  | some root =>
      obtain ⟨c', hc', hinstalled⟩ := bind_eq_ok_iff.mp hinstalled
      obtain rfl : some c' = installed := Except.ok.inj hinstalled
      rw [mapError_eq_ok_iff] at hc'
      cases modulePath with
      | none =>
          obtain rfl : c' = c := Except.ok.inj h
          exact .inr (.inl ⟨root, rfl, rfl, hc'⟩)
      | some text =>
          exact .inr (.inr ⟨text, root, c', rfl, rfl, hc', (Except.ok.inj h).symm⟩)

theorem reachable_of_catalogOf {storage : Storage}
    (h : catalogOf storage modulePath home = .ok c) : c.Reachable := by
  obtain ⟨text, -, -, rfl⟩ | ⟨root, -, -, hc⟩ | ⟨text, root, installed, -, -, hc, rfl⟩ :=
    catalogOf_cases h
  · exact .ofEntries _
  · exact .installed hc
  · exact .append (.ofEntries _) (.installed hc)

/-- What a command leaves that prints a text of the module of a name: nothing but an error if the
listing has no module of that name. -/
structure Shows (modules : List LocatedModule) (name : String) (text : LocatedModule → String)
    (outcome : Outcome) : Prop where
  succeeds_iff : outcome.exitCode = 0 ↔ ∃ m ∈ modules, m.name = name
  found : ∀ m ∈ modules, m.name = name → outcome = ⟨0, text m, ""⟩
  missing : (∀ m ∈ modules, m.name ≠ name) →
    outcome = ⟨1, "", "Error: Module " ++ name ++ " not found\n"⟩

theorem report_notFound (name : String) :
    (Failure.notFound name).report = "Error: Module " ++ name ++ " not found\n" := by
  have hreport : (Failure.notFound name).report =
      "Error: " ++ ("Module " ++ name ++ " not found") ++ "\n" := rfl
  rw [hreport]
  simp [← String.toList_inj]

theorem shows_lookup (hc : c.WellFormed) (hall : (c.findAll s).1 = .ok modules) (name : String)
    (text : LocatedModule → String) :
    Shows modules name text (.ofAnswer ((lookup s c name).map text)) := by
  obtain ⟨found, rfl, hfind⟩ := Catalog.exists_modules_of_findAll hc hall
  rw [lookup, hfind name]
  cases hget : found.get? name with
  | none =>
      have hmissing : ∀ m ∈ found.toList, m.name ≠ name := by
        rintro m hm rfl
        rw [Modules.mem_toList, hget] at hm
        cases hm
      refine ⟨⟨nofun, ?_⟩, ?_, ?_⟩
      · rintro ⟨m, hm, hname⟩
        exact absurd hname (hmissing m hm)
      · exact fun m hm hname => absurd hname (hmissing m hm)
      · intro _
        rw [← report_notFound]
        rfl
  | some m =>
      obtain rfl : m.name = name := Modules.name_of_get? hget
      have hm : m ∈ found.toList := Modules.mem_toList.mpr hget
      refine ⟨⟨fun _ => ⟨m, hm, rfl⟩, fun _ => rfl⟩, ?_, ?_⟩
      · intro n hn hname
        rw [Modules.mem_toList, hname, hget] at hn
        obtain rfl := Option.some.inj hn
        rfl
      · exact fun h => absurd rfl (h m hm)

theorem mem_of_catalogOf {storage : Storage} {text root : String}
    (h : catalogOf storage (some text) (some root) = .ok c)
    (hall : (c.findAll s).1 = .ok modules) :
    ∃ installed onPath inHome,
      Installation.catalog storage Installation.permitsAll ⟨root⟩ = .ok installed ∧
      ((Catalog.ofEntries (Request.entriesOf text)).findAll s).1 = .ok onPath ∧
      (installed.findAll s).1 = .ok inHome ∧
      ∀ m, m ∈ modules ↔ m ∈ onPath ∨ m ∈ inHome ∧ ∀ n ∈ onPath, n.name ≠ m.name := by
  obtain ⟨_, -, hnone, -⟩ | ⟨_, hnone, -⟩ | ⟨_, _, installed, htext, hroot, hinstalled, rfl⟩ :=
    catalogOf_cases h
  · cases hnone
  · cases hnone
  · cases htext
    cases hroot
    have hwell := Catalog.wellFormed_of_reachable (.installed hinstalled)
    obtain ⟨onPath, inHome, hpath, hhome, hmem⟩ :=
      Catalog.mem_findAll_append (Catalog.wellFormed_of_reachable (.ofEntries _)) hwell hall
    exact ⟨installed, onPath, inHome, hinstalled, hpath, hhome, hmem⟩

theorem listing_of_answer {output : String}
    (h : Command.answer s workingDirectory c .list = .ok output) :
    ∃ modules, (c.findAll s).1 = .ok modules ∧
      output = String.join (modules.map (line workingDirectory)) := by
  rw [Command.answer] at h
  split at h
  · cases h
  · rename_i modules hall
    exact ⟨modules, hall, (Except.ok.inj h).symm⟩

end Answers

/-! ## Runs -/

variable {s : Surroundings} {workingDirectory : Path} {environment : Environment}
  {arguments pre post : List String} {before : Options} {request : Request} {c : Catalog}

theorem run_eq_ofAnswer (hrequest : Request.ofArguments environment arguments = .ok request)
    (hc : catalogOf s.storage request.modulePath request.home = .ok c) :
    run s workingDirectory environment arguments =
      .ofAnswer (request.command.answer s workingDirectory c) := by
  rw [run, hrequest]
  change Outcome.ofAnswer (catalogOf s.storage request.modulePath request.home >>= _) = _
  rw [hc]
  rfl

theorem exists_catalog_of_run (hrequest : Request.ofArguments environment arguments = .ok request)
    (hrun : (run s workingDirectory environment arguments).exitCode = 0) :
    ∃ c output, catalogOf s.storage request.modulePath request.home = .ok c ∧
      request.command.answer s workingDirectory c = .ok output := by
  rw [run, hrequest] at hrun
  cases hanswer : request.answer s workingDirectory with
  | error failure => simp [hanswer, Outcome.ofAnswer] at hrun
  | ok output =>
      obtain ⟨c, hc, houtput⟩ := bind_eq_ok_iff.mp hanswer
      exact ⟨c, output, hc, houtput⟩

/-- If a listing succeeds, the other commands succeed for the names of its modules, and print of a
module what stands on its line. -/
theorem commands_agree (hbefore : ({} : Options).readBefore none pre = .ok (before, []))
    (hrequest : Request.ofArguments environment (pre ++ "list" :: post) = .ok request)
    (hlist : (run s workingDirectory environment (pre ++ "list" :: post)).exitCode = 0) :
    ∃ c modules, catalogOf s.storage request.modulePath request.home = .ok c ∧
      (c.findAll s).1 = .ok modules ∧
      modules.Pairwise (fun m n => m.name < n.name) ∧
      run s workingDirectory environment (pre ++ "list" :: post) =
        ⟨0, String.join (modules.map (line workingDirectory)), ""⟩ ∧
      (∀ name : String, name.toList.head? ≠ some '-' →
        Shows modules name (fun m => locationText workingDirectory m ++ "\n")
            (run s workingDirectory environment (pre ++ "find" :: name :: post)) ∧
          Shows modules name (fun m => m.descriptor.toJson.pretty ++ "\n")
            (run s workingDirectory environment (pre ++ "describe" :: name :: post))) ∧
      ∀ text root, request.modulePath = some text → request.home = some root →
        ∃ installed onPath inHome,
          Installation.catalog s.storage Installation.permitsAll ⟨root⟩ = .ok installed ∧
          ((Catalog.ofEntries (Request.entriesOf text)).findAll s).1 = .ok onPath ∧
          (installed.findAll s).1 = .ok inHome ∧
          ∀ m, m ∈ modules ↔ m ∈ onPath ∨ m ∈ inHome ∧ ∀ n ∈ onPath, n.name ≠ m.name := by
  obtain ⟨c, output, hc, hanswer⟩ := exists_catalog_of_run hrequest hlist
  have hcommand := command_of_list hbefore hrequest
  rw [run_eq_ofAnswer hrequest hc, hanswer]
  rw [hcommand] at hanswer
  obtain ⟨modules, hall, rfl⟩ := listing_of_answer hanswer
  have hwell := Catalog.wellFormed_of_reachable (reachable_of_catalogOf hc)
  refine ⟨c, modules, hc, hall, Catalog.ascending_of_findAll hwell hall, rfl, ?_, ?_⟩
  · -- all three commands are carried out on one catalog, whose listing is known
    intro name hname
    have hoperand := ofText_operand hname
    have hfind : Request.ofArguments environment (pre ++ "find" :: name :: post) =
        .ok { request with command := .find name } :=
      ofArguments_named hbefore hrequest hoperand rfl rfl
    have hdescribe : Request.ofArguments environment (pre ++ "describe" :: name :: post) =
        .ok { request with command := .describe name } :=
      ofArguments_named hbefore hrequest hoperand rfl rfl
    rw [run_eq_ofAnswer hfind hc, run_eq_ofAnswer hdescribe hc]
    exact ⟨shows_lookup hwell hall name _, shows_lookup hwell hall name _⟩
  · intro text root htext hroot
    rw [htext, hroot] at hc
    exact mem_of_catalogOf hc hall

/-- A module `m` at `/m`, which is also in the installation at `/jdk` with a module `n`. -/
def hidingSample : Surroundings :=
  .ofList [("/m", .directory (some ["module-info.json"])),
    ("/m/module-info.json", .file (some "\x7b\"name\":\"m\"\x7d".toUTF8)),
    ("/jdk/modules", .directory (some ["m", "n"])),
    ("/jdk/modules/m", .directory (some ["module-info.json"])),
    ("/jdk/modules/m/module-info.json", .file (some "\x7b\"name\":\"m\"\x7d".toUTF8)),
    ("/jdk/modules/n", .directory (some ["module-info.json"])),
    ("/jdk/modules/n/module-info.json", .file (some "\x7b\"name\":\"n\"\x7d".toUTF8))]

theorem commands_agree_sample :
    ({} : Options).readBefore none ["-p", "/m"] =
        .ok (⟨some "/m", none, false⟩, []) ∧
      Request.ofArguments {} (["-p", "/m"] ++ "list" :: ["--home=/jdk"]) =
        .ok ⟨.list, some "/m", some "/jdk"⟩ ∧
      run hidingSample ⟨"/"⟩ {} (["-p", "/m"] ++ "list" :: ["--home=/jdk"]) =
        ⟨0, "m file:///m/\nn file:///jdk/modules/n/\n", ""⟩ ∧
      ∃ modules : List LocatedModule,
        String.join (modules.map (line ⟨"/"⟩)) = "m file:///m/\nn file:///jdk/modules/n/\n" ∧
        ∀ name : String, name.toList.head? ≠ some '-' →
          Shows modules name (fun m => locationText ⟨"/"⟩ m ++ "\n")
              (run hidingSample ⟨"/"⟩ {}
                (["-p", "/m"] ++ "find" :: name :: ["--home=/jdk"])) ∧
            Shows modules name (fun m => m.descriptor.toJson.pretty ++ "\n")
              (run hidingSample ⟨"/"⟩ {}
                (["-p", "/m"] ++ "describe" :: name :: ["--home=/jdk"])) := by
  have hbefore : ({} : Options).readBefore none ["-p", "/m"] =
      .ok (⟨some "/m", none, false⟩, []) := by
    decide +kernel
  have hrequest : Request.ofArguments {} (["-p", "/m"] ++ "list" :: ["--home=/jdk"]) =
      .ok ⟨.list, some "/m", some "/jdk"⟩ := by
    decide +kernel
  have hlist : run hidingSample ⟨"/"⟩ {} (["-p", "/m"] ++ "list" :: ["--home=/jdk"]) =
      ⟨0, "m file:///m/\nn file:///jdk/modules/n/\n", ""⟩ := by
    decide +kernel
  obtain ⟨c, modules, -, -, -, hlines, hshows, -⟩ :=
    commands_agree hbefore hrequest (congrArg Outcome.exitCode hlist)
  refine ⟨hbefore, hrequest, hlist, modules, ?_, hshows⟩
  exact congrArg Outcome.output (hlines.symm.trans hlist)

end ModuleSearch.CommandLine
