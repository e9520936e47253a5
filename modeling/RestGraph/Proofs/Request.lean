import RestGraph.Request.Prepare
import RestGraph.Proofs.Label
import RestGraph.Proofs.Registry

namespace RestGraph.Request

open Table

/-!
# What a request holds

Each part of a request is looked at through one function. A value given under a name is in
the part that its parameter belongs to and in no other, unless the configuration has its
own value there.
-/

/-- A value as it stands in a part of a request: headers and cookies hold text. -/
def Part.written : Part → Value → Value
  | .path, v => v
  | .query, v => v
  | .header, v => .text v.plain
  | .cookie, v => .text v.plain

/-- What a value of one part leaves in another: itself there if they are the same part, and
nothing else. A null leaves nothing. -/
def Part.share (own part : Part) : Value → Option Value
  | .null => none
  | v => if own = part then some (part.written v) else none

def valueIn (r : Request) : Part → String → Option Value
  | .path, name => get? r.pathValues name
  | .query, name => get? r.query name
  | .header, name => (get? r.headers name).map .text
  | .cookie, name => (get? r.cookies name).map .text

def configured (c : Config) : Part → String → Option Value
  | .header, name => (get? c.headers name).map .text
  | .query, name => (get? c.query name).map .text
  | _, _ => none

theorem configured_of_not_preset {c : Config} {name : String} (h : c.isPreset name = false)
    (part : Part) : configured c part name = none := by
  obtain ⟨hheaders, hquery⟩ := Bool.or_eq_false_iff.mp h
  have hheader : get? c.headers name = none := contains_eq_false_iff.mp hheaders
  have hq : get? c.query name = none := contains_eq_false_iff.mp hquery
  cases part <;> simp [configured, hheader, hq]

theorem valueIn_url (r : Request) (url : String) (part : Part) (name : String) :
    valueIn { r with url := url } part name = r.valueIn part name := by
  cases part <;> rfl

theorem Part.share_of_ne_null (own part : Part) {v : Value} (hv : v ≠ .null) :
    own.share part v = if own = part then some (part.written v) else none := by
  cases v <;> first | rfl | exact absurd rfl hv

theorem place_of_ne_null (r : Request) (own : Part) (name : String) {v : Value} (hv : v ≠ .null) :
    r.place own name v = match own with
      | .path => .ok { r with pathValues := insert r.pathValues name v }
      | .header => v.written.map fun s => { r with headers := insert r.headers name s }
      | .cookie => v.written.map fun s => { r with cookies := insert r.cookies name s }
      | .query => .ok { r with query := insert r.query name v } := by
  cases v <;> first | exact absurd rfl hv | cases own <;> rfl

/-- A value that is written somewhere was writable, and its plain form stands there. -/
theorem eq_of_map_written {v : Value} {f : String → Request} {r : Request}
    (h : v.written.map f = .ok r) : r = f v.plain := by
  cases hwritten : v.written with
  | error b =>
      rw [hwritten] at h
      cases h
  | ok s =>
      obtain ⟨-, rfl⟩ := Value.written_eq_ok_iff.mp hwritten
      rw [hwritten] at h
      exact (Except.ok.inj h).symm

/-- A request that holds a value in a part. -/
def held (r : Request) (name : String) (v : Value) : Part → Request
  | .path => { r with pathValues := insert r.pathValues name v }
  | .header => { r with headers := insert r.headers name v.plain }
  | .cookie => { r with cookies := insert r.cookies name v.plain }
  | .query => { r with query := insert r.query name v }

/-- A null leaves a request as it is, and any other value is held in its part. -/
theorem place_outcome {r r' : Request} {own : Part} {name : String} {v : Value}
    (h : r.place own name v = .ok r') :
    v = .null ∧ r' = r ∨ v ≠ .null ∧ r' = r.held name v own := by
  by_cases hv : v = .null
  · subst hv
    exact .inl ⟨rfl, (Except.ok.inj h).symm⟩
  · refine .inr ⟨hv, ?_⟩
    rw [place_of_ne_null r own name hv] at h
    cases own with
    | path | query => exact (Except.ok.inj h).symm
    | header | cookie => exact eq_of_map_written h

theorem valueIn_place {r r' : Request} {own : Part} {name : String} {v : Value}
    (h : r.place own name v = .ok r') (part : Part) (q : String) :
    r'.valueIn part q =
      if name = q then (own.share part v).or (r.valueIn part q) else r.valueIn part q := by
  rcases place_outcome h with ⟨rfl, rfl⟩ | ⟨hv, rfl⟩
  · simp [Part.share]
  · rw [Part.share_of_ne_null own part hv]
    cases own <;> cases part <;> by_cases hq : name = q <;>
      simp [held, valueIn, Part.written, hq]

theorem placeAll_cons_eq_ok {parts : Table String Part} {r r' : Request} {name : String}
    {v : Value} {values : List (String × Value)}
    (h : placeAll parts r ((name, v) :: values) = .ok r') :
    ∃ next, r.place ((get? parts name).getD .query) name v = .ok next ∧
      placeAll parts next values = .ok r' := by
  unfold placeAll at h
  cases hplace : r.place ((get? parts name).getD .query) name v with
  | error b =>
      rw [hplace] at h
      cases h
  | ok next =>
      rw [hplace] at h
      exact ⟨next, rfl, h⟩

theorem valueIn_placeAll {parts : Table String Part} {r r' : Request} {values : Table String Value}
    (hvalues : Distinct values) (h : placeAll parts r values = .ok r') (part : Part)
    (name : String) :
    r'.valueIn part name =
      ((get? values name).bind (((get? parts name).getD .query).share part)).or
        (r.valueIn part name) := by
  induction values generalizing r with
  | nil =>
      obtain rfl := Except.ok.inj h
      rfl
  | cons e values ih =>
      obtain ⟨key, v⟩ := e
      obtain ⟨hkey, hrest⟩ := List.nodup_cons.mp hvalues
      obtain ⟨next, hplace, hnext⟩ := placeAll_cons_eq_ok h
      rw [ih hrest hnext, valueIn_place hplace]
      by_cases hname : key = name
      · subst hname
        have hnone : get? values key = none := get?_eq_none_iff.mpr hkey
        simp [hnone, get?]
      · simp [hname, get?]

/-- What is kept by placing one value is kept by placing all of them. -/
theorem placeAll_keeps {P : Request → Prop} {parts : Table String Part}
    (hstep : ∀ {r r' own name v}, place r own name v = .ok r' → P r → P r')
    {r r' : Request} {values : Table String Value} (h : placeAll parts r values = .ok r')
    (hr : P r) : P r' := by
  induction values generalizing r with
  | nil =>
      obtain rfl := Except.ok.inj h
      exact hr
  | cons e values ih =>
      obtain ⟨next, hplace, hnext⟩ := placeAll_cons_eq_ok h
      exact ih hnext (hstep hplace hr)

theorem body_placeAll {parts : Table String Part} {r r' : Request} {values : Table String Value}
    (h : placeAll parts r values = .ok r') : r'.body = r.body := by
  refine placeAll_keeps (P := fun q => q.body = r.body) ?_ h rfl
  intro q q' own name v hplace hq
  rcases place_outcome hplace with ⟨-, rfl⟩ | ⟨-, rfl⟩
  · exact hq
  · cases own <;> exact hq

/-- Values are placed if all that are sent as texts can be written. -/
theorem exists_placeAll {parts : Table String Part} (r : Request) {values : Table String Value}
    (h : ∀ e ∈ values, (get? parts e.1).getD .query = .header ∨
      (get? parts e.1).getD .query = .cookie → e.2.isWritable = true) :
    ∃ r', placeAll parts r values = .ok r' := by
  induction values generalizing r with
  | nil => exact ⟨r, rfl⟩
  | cons e values ih =>
      obtain ⟨name, v⟩ := e
      obtain ⟨hown, hrest⟩ := List.forall_mem_cons.mp h
      have hplace : ∃ next, r.place ((get? parts name).getD .query) name v = .ok next := by
        by_cases hv : v = .null
        · subst hv
          exact ⟨r, rfl⟩
        · rw [place_of_ne_null r _ name hv]
          generalize (get? parts name).getD .query = own at hown
          cases own with
          | path | query => exact ⟨_, rfl⟩
          | header => exact ⟨_, by rw [Value.written_of_isWritable (hown (.inl rfl))]; rfl⟩
          | cookie => exact ⟨_, by rw [Value.written_of_isWritable (hown (.inr rfl))]; rfl⟩
      obtain ⟨next, hnext⟩ := hplace
      unfold placeAll
      rw [hnext]
      exact ih next hrest

theorem valueIn_configure {c : Config} (hheaders : Distinct c.headers) (hquery : Distinct c.query)
    (r : Request) (part : Part) (name : String) :
    (configure c r).valueIn part name = (configured c part name).or (r.valueIn part name) := by
  have hquery' : Distinct (c.query.map fun e => (e.1, Value.text e.2)) := by
    unfold Distinct
    rwa [keys_map]
  cases part with
  | path => rfl
  | cookie => rfl
  | header =>
      simp only [configure, valueIn, configured, get?_insertAll _ hheaders]
      cases get? c.headers name <;> rfl
  | query => simp [configure, valueIn, configured, get?_insertAll _ hquery']

/-! ## Arguments -/

/-- The part that an operation declares for a name: the query, if it declares none. -/
def declaredPart (ps : List Parameter) (name : String) : Part :=
  ((ps.find? fun p => p.name.text? == some name).map fun p =>
    Part.ofLocation p.location).getD .query

theorem get?_parts (found : Table String Part) {ps : List Parameter}
    (h : (ps.filterMap fun p => p.name.text?).Nodup) (name : String) :
    get? (parts found ps) name =
      ((ps.find? fun p => p.name.text? == some name).map fun p => Part.ofLocation p.location).or
        (get? found name) := by
  induction ps generalizing found with
  | nil => rfl
  | cons p ps ih =>
      unfold parts
      cases hname : p.name with
      | text text =>
          have hp : p.name.text? = some text := Value.text?_eq_some_iff.mpr hname
          rw [List.filterMap_cons, hp] at h
          obtain ⟨hnew, hps⟩ := List.nodup_cons.mp h
          simp only [ih _ hps, get?_insert, List.find?_cons, hp]
          by_cases htext : text = name
          · subst htext
            have hnone : (ps.find? fun p => p.name.text? == some text) = none := by
              rw [List.find?_eq_none]
              intro q hq hqname
              exact hnew (List.mem_filterMap.mpr ⟨q, hq, eq_of_beq hqname⟩)
            simp [hnone]
          · have hne : (some text == some name) = false := by simp [htext]
            simp [htext, hne]
      | _ =>
          have hp : p.name.text? = none := by rw [hname]; rfl
          rw [List.filterMap_cons, hp] at h
          have hne : (none == some name) = false := rfl
          simp only [ih _ h, List.find?_cons, hp, hne]

/-- The arguments that are values of parameters, by the names of these. -/
def sent (names : Name.Registry) (body : Option String) (arguments : Table String Value) :
    Table String Value :=
  arguments.filterMap fun e =>
    if body == some (names.textOr e.1 e.1) then none else some (names.textOr e.1 e.1, e.2)

theorem content_values (names : Name.Registry) (body : Option String) (given : Content)
    (arguments : List (String × Value)) :
    (content names body given arguments).values =
      insertAll given.values (sent names body arguments) := by
  induction arguments generalizing given with
  | nil => rfl
  | cons e arguments ih =>
      obtain ⟨key, v⟩ := e
      unfold content
      by_cases hbody : (body == some (names.textOr key key)) = true
      · simp only [hbody, if_true, ih, sent, List.filterMap_cons]
      · simp only [hbody, Bool.false_eq_true, if_false, ih, sent, List.filterMap_cons]
        rfl

section Known

variable {names : Name.Registry} {arguments : Table String Value}

theorem textOr_eq_iff (h : names.Coherent) {key key' text : String}
    (hkey : names.text? key = some text) (hknown : ∃ text, names.text? key' = some text) :
    names.textOr key' key' = text ↔ key' = key := by
  obtain ⟨text', hkey'⟩ := hknown
  have hname : names.textOr key' key' = text' := by simp [Name.Registry.textOr, hkey']
  rw [hname]
  constructor
  · rintro rfl
    have hsame := ((h.inverse key text').mp hkey).symm.trans ((h.inverse key' text').mp hkey')
    exact (Option.some.inj hsame).symm
  · rintro rfl
    exact Option.some.inj (hkey'.symm.trans hkey)

theorem get?_sent (h : names.Coherent) {body : Option String}
    (hknown : ∀ key ∈ keys arguments, ∃ text, names.text? key = some text) {key text : String}
    (hkey : names.text? key = some text) (hbody : body ≠ some text) :
    get? (sent names body arguments) text = get? arguments key := by
  induction arguments with
  | nil => rfl
  | cons e arguments ih =>
      obtain ⟨key', v⟩ := e
      have hrest := ih fun k hk => hknown k (List.mem_cons_of_mem _ hk)
      have hiff := textOr_eq_iff h hkey (hknown key' List.mem_cons_self)
      by_cases hsame : key' = key
      · subst hsame
        have htext := hiff.mpr rfl
        have hother : (body == some (names.textOr key' key')) = false := by
          rw [htext]
          exact beq_eq_false_iff_ne.mpr hbody
        unfold sent
        rw [List.filterMap_cons]
        simp only [hother, Bool.false_eq_true, if_false]
        simp [get?, htext]
      · have htext : ¬ names.textOr key' key' = text := fun ht => hsame (hiff.mp ht)
        have hstep : get? (sent names body ((key', v) :: arguments)) text =
            get? (sent names body arguments) text := by
          unfold sent
          rw [List.filterMap_cons]
          split
          · rfl
          · rename_i e' heq
            split at heq
            · cases heq
            · cases heq
              simp [get?, htext]
        rw [hstep, hrest]
        simp [get?, hsame]

theorem get?_sent_eq_none {body : Option String} {text : String}
    (hnone : ∀ key ∈ keys arguments, names.textOr key key = text → body = some text) :
    get? (sent names body arguments) text = none := by
  rw [get?_eq_none_iff]
  intro hmem
  obtain ⟨e, he, rfl⟩ := List.mem_map.mp hmem
  obtain ⟨e', he', hsome⟩ := List.mem_filterMap.mp he
  split at hsome
  · cases hsome
  · rename_i hbody
    cases hsome
    exact hbody (beq_iff_eq.mpr (hnone e'.1 (List.mem_map.mpr ⟨e', he', rfl⟩) rfl))

theorem distinct_sent (h : names.Coherent) (body : Option String) (hargs : Distinct arguments)
    (hknown : ∀ key ∈ keys arguments, ∃ text, names.text? key = some text) :
    Distinct (sent names body arguments) := by
  induction arguments with
  | nil => exact List.nodup_nil
  | cons e arguments ih =>
      obtain ⟨key, v⟩ := e
      obtain ⟨hkey, hrest⟩ := List.nodup_cons.mp hargs
      have htail := ih hrest fun k hk => hknown k (List.mem_cons_of_mem _ hk)
      obtain ⟨text, htext⟩ := hknown key List.mem_cons_self
      have hname : names.textOr key key = text := by simp [Name.Registry.textOr, htext]
      unfold sent
      rw [List.filterMap_cons]
      split
      · exact htail
      · rename_i e' heq
        split at heq
        · cases heq
        · cases heq
          refine List.nodup_cons.mpr ⟨?_, htail⟩
          rw [hname]
          change text ∉ keys (sent names body arguments)
          rw [← get?_eq_none_iff]
          refine get?_sent_eq_none fun k hk hsame => ?_
          have hk' := (textOr_eq_iff h htext (hknown k (List.mem_cons_of_mem _ hk))).mp hsame
          exact absurd (hk' ▸ hk) hkey

/-- The body is the argument whose key stands for it, restored, or what it was before. -/
theorem content_body (h : names.Coherent) {body : String} (given : Content)
    (hargs : Distinct arguments)
    (hknown : ∀ key ∈ keys arguments, ∃ text, names.text? key = some text) {key : String}
    (hkey : names.text? key = some body) :
    (content names (some body) given arguments).body =
      ((get? arguments key).map names.restore).getD given.body := by
  induction arguments generalizing given with
  | nil => rfl
  | cons e arguments ih =>
      obtain ⟨key', v⟩ := e
      obtain ⟨hnew, hrest⟩ := List.nodup_cons.mp hargs
      have hstep := fun g => ih g hrest fun k hk => hknown k (List.mem_cons_of_mem _ hk)
      have hiff := textOr_eq_iff h hkey (hknown key' List.mem_cons_self)
      unfold content
      by_cases hsame : key' = key
      · subst hsame
        have htext := hiff.mpr rfl
        have hnone : get? arguments key' = none := get?_eq_none_iff.mpr hnew
        simp [htext, hstep, hnone, get?]
      · have htext : ¬ body = names.textOr key' key' := fun ht => hsame (hiff.mp ht.symm)
        simp [htext, hstep, hsame, get?]

theorem content_body_of_absent {body : Option String} (given : Content)
    (hnone : ∀ key ∈ keys arguments, body ≠ some (names.textOr key key)) :
    (content names body given arguments).body = given.body := by
  induction arguments generalizing given with
  | nil => rfl
  | cons e arguments ih =>
      obtain ⟨key, v⟩ := e
      have hkey : ¬ body = some (names.textOr key key) := hnone key List.mem_cons_self
      have hstep := fun g => ih g fun k hk => hnone k (List.mem_cons_of_mem _ hk)
      unfold content
      simp [hkey, hstep]

end Known

def contentOf (names : Name.Registry) (o : Operation) (preset : Table String String)
    (parent : Value) (arguments : Table String Value) : Content :=
  content names o.request ⟨preset.map fun e => (e.1, parent.resolve e.2), .null⟩ arguments

theorem distinct_contentOf (names : Name.Registry) (o : Operation)
    {preset : Table String String} (hpreset : Distinct preset) (parent : Value)
    (arguments : Table String Value) :
    Distinct (contentOf names o preset parent arguments).values := by
  unfold contentOf
  rw [content_values]
  refine Distinct.insertAll ?_ _
  unfold Distinct
  rwa [keys_map]

/-- A request without any value but its body. -/
def blank (o : Operation) (body : Value) : Request :=
  ⟨o.id, o.method.toUpper, "", [], [], [], [], body⟩

theorem valueIn_blank (o : Operation) (body : Value) (part : Part) (name : String) :
    (blank o body).valueIn part name = none := by
  cases part <;> rfl

section Prepare

variable {c : Config} {names : Name.Registry} {o : Operation} {preset : Table String String}
  {parent : Value} {arguments : Table String Value} {r : Request}

theorem exists_url_of_prepare (h : prepare c names o preset parent arguments = .ok r) :
    let content := contentOf names o preset parent arguments
    ∃ placed url,
      placeAll (parts [] o.parameters) (blank o content.body) content.values = .ok placed ∧
      r = { placed.configure c with url := url } := by
  intro content
  change ((placeAll (parts [] o.parameters) (blank o content.body) content.values).mapError
    Failure.malformed >>= _) = _ at h
  cases hplaced : placeAll (parts [] o.parameters) (blank o content.body) content.values with
  | error b =>
      rw [hplaced] at h
      cases h
  | ok placed =>
      rw [hplaced] at h
      simp only [Except.mapError, bind, Except.bind] at h
      split at h
      · cases h
      · rename_i url hurl
        exact ⟨placed, url, rfl, (Except.ok.inj h).symm⟩

theorem body_prepare (h : prepare c names o preset parent arguments = .ok r) :
    r.body = (contentOf names o preset parent arguments).body := by
  obtain ⟨placed, url, hplaced, rfl⟩ := exists_url_of_prepare h
  exact body_placeAll hplaced

/-- What a prepared request holds: the configuration's own values first, and else those of
the presets and arguments, each in the part of its parameter. -/
theorem valueIn_prepare (hheaders : Distinct c.headers) (hquery : Distinct c.query)
    (hnames : (o.parameters.filterMap fun p => p.name.text?).Nodup)
    (hvalues : Distinct (contentOf names o preset parent arguments).values)
    (h : prepare c names o preset parent arguments = .ok r) (part : Part) (name : String) :
    r.valueIn part name = (configured c part name).or
      ((get? (contentOf names o preset parent arguments).values name).bind
        ((declaredPart o.parameters name).share part)) := by
  obtain ⟨placed, url, hplaced, rfl⟩ := exists_url_of_prepare h
  rw [valueIn_url, valueIn_configure hheaders hquery, valueIn_placeAll hvalues hplaced,
    valueIn_blank, Option.or_none, get?_parts _ hnames, get?_nil, Option.or_none]
  rfl

end Prepare

end RestGraph.Request
