import Spn.Strings

/-! # Web urls

`git/url.c`: the url of a repository as a browser would take it. What is before the host of
a url is cut at its first `@`, so that no credential is left where there is one `@` at most.
-/
namespace Spn.Git

def colon : UInt8 := 0x3a
def atSign : UInt8 := 0x40

def http : Str := str "http"
def https : Str := str "https"
def ssh : Str := str "ssh"

/-- `://`. -/
def separator : Str := [colon, slash, slash]

/-- `git_url_t`. -/
structure Url where
  scheme : Str
  host : Str
  path : Str
  deriving DecidableEq, Repr

/-- `sp_zero_s(git_url_t)`. -/
def Url.zero : Url := ⟨[], [], []⟩

/-- `strip_user`. -/
def stripUser (authority : Str) : Str :=
  let user := cleave authority atSign
  if user.1 = authority then authority else user.2

/-- `parse_authority`. -/
def parseAuthority (url : Str) (schemeEnd : ℕ) : Url :=
  let scheme := toLower (url.take schemeEnd)
  let split := cleave (url.drop (schemeEnd + 3)) slash
  let host := stripUser split.1
  if scheme = ssh ∧ colon ∉ host then ⟨https, host, split.2⟩
  else if scheme = http ∨ scheme = https then ⟨scheme, host, split.2⟩
  else .zero

/-- The conditions of `parse_scp` on the places of the first colon and the first slash. -/
def notScp (colonAt slashAt : Option ℕ) : Bool :=
  match colonAt with
  | none => true
  | some colonAt => colonAt = 0 ∨ colonAt = 1 ∨ ∃ i ∈ slashAt, i < colonAt

/-- `parse_scp`. -/
def parseScp (url : Str) : Url :=
  if notScp (findC8 url colon) (findC8 url slash) then .zero
  else
    let split := cleave url colon
    ⟨https, stripUser split.1, stripLeft split.2 [slash]⟩

/-- `parse_url`. -/
def parseUrl (url : Str) : Url :=
  let parsed := match find separator url with
    | none => parseScp url
    | some schemeEnd => parseAuthority url schemeEnd
  if parsed.host = [] ∨ parsed.path = [] then .zero else parsed

/-- `{}://{}/{}`. -/
def webText (scheme host path : Str) : Str := scheme ++ (separator ++ (host ++ slash :: path))

/-- `spn_git_url_web`. -/
def gitUrlWeb (url : Str) : Str :=
  let parsed := parseUrl url
  if parsed.scheme = [] then url else webText parsed.scheme (toLower parsed.host) parsed.path

/-! ## The forms of a url -/

/-- The host of an authority, which is what follows its last `@`. -/
def hostOf (authority : Str) : Str := authority.rtakeWhile (· ≠ atSign)

inductive Kind
  | web | ssh | scp
  deriving DecidableEq, Repr

/-- The three forms of a url: the scheme of the web url, what stands before the path, and the
path. -/
inductive Form : Kind → Str → Str → Str → Str → Prop
  | web {scheme authority path : Str} (hscheme : toLower scheme = http ∨ toLower scheme = https)
      (hauthority : slash ∉ authority) :
      Form .web (webText scheme authority path) (toLower scheme) authority path
  | ssh {scheme authority path : Str} (hscheme : toLower scheme = ssh)
      (hauthority : slash ∉ authority) (hport : colon ∉ hostOf authority) :
      Form .ssh (webText scheme authority path) https authority path
  | scp {authority rest : Str} (hcolon : colon ∉ authority) (hauthority : slash ∉ authority)
      (hdrive : 2 ≤ authority.length) (hscheme : ¬separator <:+: authority ++ colon :: rest) :
      Form .scp (authority ++ colon :: rest) https authority (stripLeft rest [slash])

/-- A url in one of the forms, with a host and a path. -/
structure Recognised (kind : Kind) (url scheme authority path : Str) : Prop where
  form : Form kind url scheme authority path
  host : hostOf authority ≠ []
  path : path ≠ []

theorem caseless_colon : Caseless colon :=
  fun x => Lib.forall_byte (P := fun x => lowerC8 x = colon ↔ x = colon) (by decide +kernel) x

theorem caseless_slash : Caseless slash :=
  fun x => Lib.forall_byte (P := fun x => lowerC8 x = slash ↔ x = slash) (by decide +kernel) x

theorem caseless_atSign : Caseless atSign :=
  fun x => Lib.forall_byte (P := fun x => lowerC8 x = atSign ↔ x = atSign) (by decide +kernel) x

/-! ## Users -/

theorem stripUser_of_not_mem {authority : Str} (h : atSign ∉ authority) :
    stripUser authority = authority := by
  simp [stripUser, cleave_of_not_mem h]

theorem stripUser_append {user : Str} (h : atSign ∉ user) (host : Str) :
    stripUser (user ++ atSign :: host) = host := by
  have hne : user ≠ user ++ atSign :: host := by simp
  simp only [stripUser, cleave_append h, if_neg hne]

/-- The host is what follows the first `@`, which is the last one if there is no other. -/
theorem stripUser_count (authority : Str) :
    (stripUser authority).count atSign = authority.count atSign - 1 := by
  rcases cleave_cases authority atSign with ⟨hno, -⟩ | ⟨user, host, huser, rfl, -⟩
  · rw [stripUser_of_not_mem hno, List.count_eq_zero.2 hno]
  · rw [stripUser_append huser, List.count_append, List.count_cons_self, List.count_eq_zero.2 huser]
    omega

theorem atSign_mem_stripUser {authority : Str} :
    atSign ∈ stripUser authority ↔ 2 ≤ authority.count atSign := by
  rw [← List.count_pos_iff, stripUser_count]
  omega

/-- Without a second `@`, the authority is the host with a user or without one. -/
theorem stripUser_cases (authority : Str) :
    authority = stripUser authority ∨
      ∃ user, authority = user ++ atSign :: stripUser authority := by
  rcases cleave_cases authority atSign with ⟨hno, -⟩ | ⟨user, host, huser, rfl, -⟩
  · exact .inl (stripUser_of_not_mem hno).symm
  · exact .inr ⟨user, by rw [stripUser_append huser]⟩

theorem not_mem_stripUser {authority : Str} {c : UInt8} (h : c ∉ authority) :
    c ∉ stripUser authority := by
  rcases stripUser_cases authority with heq | ⟨user, heq⟩
  · rwa [← heq]
  · rw [heq] at h
    exact fun hc => h (List.mem_append_right _ (List.mem_cons_of_mem _ hc))

theorem stripUser_toLower (authority : Str) :
    stripUser (toLower authority) = toLower (stripUser authority) := by
  rcases cleave_cases authority atSign with ⟨hno, -⟩ | ⟨user, host, huser, rfl, -⟩
  · rw [stripUser_of_not_mem hno, stripUser_of_not_mem (caseless_atSign.mem_toLower.not.2 hno)]
  · have hlower : toLower (user ++ atSign :: host) = toLower user ++ atSign :: toLower host := by
      rw [toLower, List.map_append, List.map_cons, (caseless_atSign atSign).2 rfl]
      rfl
    rw [hlower, stripUser_append huser, stripUser_append (caseless_atSign.mem_toLower.not.2 huser)]

theorem length_stripUser_lt {authority : Str} (h : atSign ∈ authority) :
    (stripUser authority).length < authority.length := by
  rcases cleave_cases authority atSign with ⟨hno, -⟩ | ⟨user, host, huser, rfl, -⟩
  · exact absurd h hno
  · rw [stripUser_append huser, List.length_append, List.length_cons]
    omega

/-! ## Hosts -/

theorem atSign_not_mem_hostOf (authority : Str) : atSign ∉ hostOf authority := by
  intro h
  have hne := List.mem_rtakeWhile_imp h
  simp at hne

theorem hostOf_of_not_mem {authority : Str} (h : atSign ∉ authority) :
    hostOf authority = authority := by
  refine List.rtakeWhile_eq_self_iff.2 fun x hx => ?_
  have hne : x ≠ atSign := fun heq => h (heq ▸ hx)
  simpa using hne

theorem hostOf_append (user host : Str) : hostOf (user ++ atSign :: host) = hostOf host := by
  induction host using List.reverseRecOn with
  | nil => exact List.rtakeWhile_concat_neg _ _ _ (by simp)
  | append_singleton host last ih =>
    have hassoc : user ++ atSign :: (host ++ [last]) = (user ++ atSign :: host) ++ [last] := by simp
    rw [hassoc]
    unfold hostOf at ih ⊢
    rw [List.rtakeWhile_concat, List.rtakeWhile_concat, ih]

/-- Cutting the user leaves the host. -/
theorem hostOf_stripUser (authority : Str) : hostOf (stripUser authority) = hostOf authority := by
  rcases stripUser_cases authority with heq | ⟨user, heq⟩
  · rw [← heq]
  · conv_rhs => rw [heq, hostOf_append]

theorem stripUser_eq_hostOf {authority : Str} (h : authority.count atSign ≤ 1) :
    stripUser authority = hostOf authority := by
  rw [← hostOf_stripUser, hostOf_of_not_mem]
  rw [atSign_mem_stripUser]
  omega

theorem stripUser_eq_nil {authority : Str} :
    stripUser authority = [] ↔ hostOf authority = [] ∧ authority.count atSign ≤ 1 := by
  constructor
  · intro hnil
    have hcount := stripUser_count authority
    rw [hnil, List.count_nil] at hcount
    exact ⟨by rw [← hostOf_stripUser, hnil]; rfl, by omega⟩
  · intro ⟨hhost, hcount⟩
    rw [stripUser_eq_hostOf hcount, hhost]

theorem not_mem_hostOf {authority : Str} {c : UInt8} (h : c ∉ stripUser authority) :
    c ∉ hostOf authority := by
  rw [← hostOf_stripUser]
  exact fun hc => h ((List.rtakeWhile_suffix _ _).subset hc)

/-! ## What is recognised -/

theorem colon_not_mem {scheme : Str}
    (h : toLower scheme = http ∨ toLower scheme = https ∨ toLower scheme = ssh) :
    colon ∉ scheme := by
  rw [← caseless_colon.mem_toLower]
  rcases h with h | h | h <;> (rw [h]; decide)

/-- The authority and the path of a url with a scheme. -/
theorem parseAuthority_webText {scheme authority path : Str} (hauthority : slash ∉ authority) :
    parseAuthority (webText scheme authority path) scheme.length =
      if toLower scheme = ssh ∧ colon ∉ stripUser authority then
        ⟨https, stripUser authority, path⟩
      else if toLower scheme = http ∨ toLower scheme = https then
        ⟨toLower scheme, stripUser authority, path⟩
      else .zero := by
  have htake : (webText scheme authority path).take scheme.length = scheme := by
    simp [webText]
  have hdrop : (webText scheme authority path).drop (scheme.length + 3) =
      authority ++ slash :: path := by
    rw [webText, ← List.append_assoc]
    exact List.drop_left' (by simp [separator])
  simp only [parseAuthority, htake, hdrop, cleave_append hauthority]

theorem find_webText {scheme authority path : Str} (h : colon ∉ scheme) :
    find separator (webText scheme authority path) = some scheme.length :=
  find_append h (authority ++ slash :: path)

theorem notScp_append {authority : Str} (hcolon : colon ∉ authority) (rest : Str) :
    notScp (findC8 (authority ++ colon :: rest) colon) (findC8 (authority ++ colon :: rest) slash) =
      true ↔ authority.length < 2 ∨ slash ∈ authority := by
  rw [findC8_append hcolon]
  simp only [notScp, decide_eq_true_eq]
  constructor
  · rintro (hzero | hone | ⟨i, hi, hlt⟩)
    · exact .inl (by omega)
    · exact .inl (by omega)
    · exact .inr (findC8_lt hi hlt ⟨_, rfl⟩)
  · rintro (hshort | hslash)
    · omega
    · obtain ⟨a, b, hsplit, ha⟩ := List.eq_append_cons_of_mem hslash
      refine .inr (.inr ⟨a.length, ?_, by simp [hsplit]⟩)
      rw [hsplit, List.append_assoc, List.cons_append]
      exact findC8_append ha _

/-- The conditions of `parse_authority` and `parse_url`: the host is what is left when the user
is cut at the first `@`. -/
def Taken (kind : Kind) (authority path : Str) : Prop :=
  stripUser authority ≠ [] ∧ path ≠ [] ∧ (kind = .ssh → colon ∉ stripUser authority)

instance (kind : Kind) (authority path : Str) : Decidable (Taken kind authority path) :=
  inferInstanceAs (Decidable (_ ∧ _ ∧ _))

/-- A url of one of the forms is taken apart. -/
theorem parseUrl_of_form {kind : Kind} {url scheme authority path : Str}
    (h : Form kind url scheme authority path) :
    parseUrl url =
      if Taken kind authority path then ⟨scheme, stripUser authority, path⟩ else .zero := by
  have hfull : ∀ scheme : Str, (if stripUser authority = [] ∨ path = [] then Url.zero else
      ⟨scheme, stripUser authority, path⟩) = if stripUser authority ≠ [] ∧ path ≠ [] then
      ⟨scheme, stripUser authority, path⟩ else .zero := by
    intro scheme
    split_ifs <;> tauto
  cases h with
  | @web scheme _ _ hscheme hauthority =>
    have hssh : toLower scheme ≠ ssh := by rcases hscheme with h | h <;> (rw [h]; decide)
    have hkind : Kind.web ≠ .ssh := Kind.noConfusion
    simp only [parseUrl, find_webText (colon_not_mem (hscheme.imp_right .inl)),
      parseAuthority_webText hauthority, hssh, false_and, if_false, if_pos hscheme, hfull, Taken,
      hkind, false_implies, and_true]
  | ssh hscheme hauthority _ =>
    have hweb : ¬(ssh = http ∨ ssh = https) := by decide
    simp only [parseUrl, find_webText (colon_not_mem (.inr (.inr hscheme))),
      parseAuthority_webText hauthority, hscheme, true_and, hweb, if_false, Taken, true_implies]
    by_cases hport : colon ∈ stripUser authority
    · simp [hport, Url.zero]
    · simp only [hport, not_false_eq_true, if_true, and_true, hfull]
  | @scp _ rest hcolon hauthority hdrive hscheme =>
    have hscp := (notScp_append hcolon rest).not.2 (by simp [hauthority]; omega)
    have hkind : Kind.scp ≠ .ssh := Kind.noConfusion
    simp only [parseUrl, find_of_not_infix hscheme, parseScp, if_neg hscp, cleave_append hcolon,
      hfull, Taken, hkind, false_implies, and_true]

/-- What is taken apart has one of the forms. -/
theorem parsed_of_parseUrl {url : Str} (h : (parseUrl url).scheme ≠ []) :
    ∃ kind scheme authority path, Form kind url scheme authority path ∧
      Taken kind authority path := by
  obtain ⟨parsed, hparsed⟩ : ∃ parsed, parsed = (match find separator url with
    | none => parseScp url
    | some schemeEnd => parseAuthority url schemeEnd) := ⟨_, rfl⟩
  have hurl : parseUrl url = if parsed.host = [] ∨ parsed.path = [] then .zero else parsed := by
    rw [hparsed]
    rfl
  by_cases hempty : parsed.host = [] ∨ parsed.path = []
  · rw [hurl, if_pos hempty] at h
    exact absurd rfl h
  rw [hurl, if_neg hempty] at h
  push Not at hempty
  obtain ⟨hhost, hpath⟩ := hempty
  suffices hform : ∃ kind authority, Form kind url parsed.scheme authority parsed.path ∧
      parsed.host = stripUser authority ∧ (kind = .ssh → colon ∉ stripUser authority) by
    obtain ⟨kind, authority, hform, heq, hport⟩ := hform
    exact ⟨kind, _, authority, _, hform, heq ▸ hhost, hpath, hport⟩
  cases hfind : find separator url with
  | none =>
    rw [hfind] at hparsed
    simp only [parseScp] at hparsed
    split at hparsed
    · rw [hparsed] at h
      exact absurd rfl h
    · rename_i hscp
      rcases cleave_cases url colon with ⟨hno, -⟩ | ⟨authority, rest, hcolon, hsplit, hcleave⟩
      · rw [findC8_of_not_mem hno] at hscp
        exact absurd rfl hscp
      · rw [hcleave] at hparsed
        rw [hsplit, notScp_append hcolon] at hscp
        push Not at hscp
        have hnone := find_eq_none hfind
        rw [hsplit] at hnone ⊢
        rw [hparsed]
        exact ⟨.scp, authority, .scp hcolon hscp.2 hscp.1 hnone, rfl, Kind.noConfusion⟩
  | some schemeEnd =>
    rw [hfind] at hparsed
    have hsplit := eq_append_of_find hfind
    have hlength : (url.take schemeEnd).length = schemeEnd := by
      have hall := congrArg List.length hsplit
      simp only [separator, List.length_append, List.length_take, List.length_drop,
        List.length_cons, List.length_nil] at hall ⊢
      omega
    rcases cleave_cases (url.drop (schemeEnd + 3)) slash with
      ⟨-, hcleave⟩ | ⟨authority, path, hauthority, hrest, -⟩
    · refine absurd ?_ hpath
      rw [hparsed]
      simp only [parseAuthority, hcleave]
      split_ifs <;> rfl
    · have hweb : url = webText (url.take schemeEnd) authority path := by
        rw [webText, ← hrest]
        exact hsplit
      generalize hscheme : url.take schemeEnd = scheme at hweb hlength
      subst hlength
      subst hweb
      simp only [parseAuthority_webText hauthority] at hparsed
      split_ifs at hparsed with hssh hhttp
      · rw [hparsed]
        exact ⟨.ssh, authority, .ssh hssh.1 hauthority (not_mem_hostOf hssh.2), rfl,
          fun _ => hssh.2⟩
      · rw [hparsed]
        exact ⟨.web, authority, .web hhttp hauthority, rfl, Kind.noConfusion⟩
      · rw [hparsed] at h
        exact absurd rfl h

/-! ## The web url -/

section

variable {kind : Kind} {url scheme authority path host : Str}

theorem scheme_of_form (h : Form kind url scheme authority path) :
    scheme = http ∨ scheme = https := by
  cases h with
  | web hscheme hauthority => exact hscheme
  | ssh hscheme hauthority hport => exact .inr rfl
  | scp hcolon hauthority hdrive hscheme => exact .inr rfl

theorem slash_not_mem (h : Form kind url scheme authority path) : slash ∉ authority := by
  cases h <;> assumption

/-- The web url of a url of one of the forms. -/
theorem gitUrlWeb_of_form (h : Form kind url scheme authority path) :
    gitUrlWeb url =
      if Taken kind authority path then webText scheme (toLower (stripUser authority)) path
      else url := by
  have hne : scheme ≠ [] := by rcases scheme_of_form h with h | h <;> (rw [h]; decide)
  unfold gitUrlWeb
  rw [parseUrl_of_form h]
  split
  · exact if_neg hne
  · rfl

/-- Anything else is left as it is. -/
theorem gitUrlWeb_of_not_form
    (h : ¬∃ kind scheme authority path, Form kind url scheme authority path ∧
      Taken kind authority path) : gitUrlWeb url = url := by
  by_cases hscheme : (parseUrl url).scheme = []
  · simp only [gitUrlWeb, if_pos hscheme]
  · exact absurd (parsed_of_parseUrl hscheme) h

/-- The first byte of the scheme tells a web url from one of ssh. -/
theorem webText_ne_ssh {scheme authority path scheme' host path' : Str}
    (hscheme : toLower scheme = ssh) (hscheme' : scheme' = http ∨ scheme' = https) :
    webText scheme authority path ≠ webText scheme' host path' := by
  intro heq
  have hlower : ∀ scheme authority path : Str, toLower (webText scheme authority path) =
      toLower scheme ++ toLower (separator ++ (authority ++ slash :: path)) :=
    fun _ _ _ => List.map_append
  have hfirst := congrArg (fun url => (toLower url).head?) heq
  simp only [hlower, hscheme] at hfirst
  have hssh : ∀ rest : Str, (ssh ++ rest).head? = some 0x73 := fun _ => rfl
  have hhttp : ∀ rest : Str, (toLower scheme' ++ rest).head? = some 0x68 := by
    rcases hscheme' with rfl | rfl <;> exact fun _ => rfl
  rw [hssh, hhttp] at hfirst
  exact absurd hfirst (by decide)

theorem webText_inj {host' : Str} (h : webText scheme host path = webText scheme host' path) :
    host = host' :=
  List.append_cancel_right (List.append_cancel_left (List.append_cancel_left h))

/-- A web url in lower case is its own web url unless there is a user to cut. -/
theorem gitUrlWeb_webText_iff (hscheme : scheme = http ∨ scheme = https) (hslash : slash ∉ host)
    (hpath : path ≠ []) :
    gitUrlWeb (webText scheme (toLower host) path) = webText scheme (toLower host) path ↔
      atSign ∉ host ∨ stripUser host = [] := by
  have hlower : toLower scheme = scheme := by rcases hscheme with h | h <;> (rw [h]; decide)
  have hform : Form .web (webText scheme (toLower host) path) scheme (toLower host) path := by
    have hweb : Form .web (webText scheme (toLower host) path) (toLower scheme) (toLower host)
        path := .web (hlower.symm ▸ hscheme) (caseless_slash.mem_toLower.not.2 hslash)
    rwa [hlower] at hweb
  rw [gitUrlWeb_of_form hform, stripUser_toLower, toLower_toLower]
  by_cases hhost : stripUser host = []
  · have hno : ¬Taken .web (toLower host) path := by
      intro ht
      refine ht.1 ?_
      rw [stripUser_toLower, hhost]
      rfl
    simp only [if_neg hno, hhost, or_true]
  · have ht : Taken .web (toLower host) path := by
      refine ⟨?_, hpath, Kind.noConfusion⟩
      rw [stripUser_toLower]
      simpa [toLower] using hhost
    rw [if_pos ht]
    constructor
    · intro heq
      refine .inl fun hat => ?_
      have hlength := congrArg List.length (webText_inj heq)
      have hlt := length_stripUser_lt hat
      simp only [toLower, List.length_map] at hlength
      omega
    · intro h
      rw [stripUser_of_not_mem (h.resolve_right hhost)]

end

/-- The web url is the web url of itself, and where the url is recognised it is the scheme, the
host in lower case and the path, without what is before the host. -/
def Clean (url : Str) : Prop :=
  gitUrlWeb (gitUrlWeb url) = gitUrlWeb url ∧
    ∀ kind scheme authority path, Recognised kind url scheme authority path →
      ∃ host, (authority = host ∨ ∃ user, authority = user ++ atSign :: host) ∧ atSign ∉ host ∧
        gitUrlWeb url = webText scheme (toLower host) path

/-- There is one `@` at most. Where no host follows the last one there may be two, and any
number in a url of ssh with a colon behind the first, which is left as it is. -/
def Plain (kind : Kind) (authority : Str) : Prop :=
  authority.count atSign ≤ 1 ∨ hostOf authority = [] ∧ (authority.count atSign = 2 ∨
    kind = .ssh ∧ colon ∈ authority.dropWhile (· ≠ atSign))

/-- The colon of a cut authority stands behind the first `@`. -/
theorem mem_stripUser_iff {authority : Str} (hat : 2 ≤ authority.count atSign) {c : UInt8}
    (hc : c ≠ atSign) : c ∈ stripUser authority ↔ c ∈ authority.dropWhile (· ≠ atSign) := by
  rcases cleave_cases authority atSign with ⟨hno, -⟩ | ⟨user, host, huser, rfl, -⟩
  · rw [List.count_eq_zero.2 hno] at hat
    omega
  · have hdrop : (user ++ atSign :: host).dropWhile (· ≠ atSign) = atSign :: host := by
      rw [List.dropWhile_append_of_pos, List.dropWhile_cons_of_neg (by simp)]
      intro x hx
      have hne : x ≠ atSign := fun heq => huser (heq ▸ hx)
      simpa using hne
    rw [stripUser_append huser, hdrop, List.mem_cons]
    simp [hc]

section

variable {kind : Kind} {url scheme authority path : Str}

/-- The web url of a url that is taken apart is stable when a second `@` is the end of the
authority. -/
theorem stable_iff (h : Form kind url scheme authority path) (ht : Taken kind authority path) :
    gitUrlWeb (gitUrlWeb url) = gitUrlWeb url ↔
      authority.count atSign ≤ 1 ∨ hostOf authority = [] ∧ authority.count atSign = 2 := by
  rw [gitUrlWeb_of_form h, if_pos ht, gitUrlWeb_webText_iff (scheme_of_form h)
    (not_mem_stripUser (slash_not_mem h)) ht.2.1, atSign_mem_stripUser, stripUser_eq_nil,
    hostOf_stripUser, stripUser_count]
  constructor
  · intro hor
    by_cases hone : authority.count atSign ≤ 1
    · exact .inl hone
    · obtain ⟨hhost, hle⟩ := hor.resolve_left (by omega)
      exact .inr ⟨hhost, by omega⟩
  · intro hor
    rcases hor with hone | ⟨hhost, htwo⟩
    · exact .inl (by omega)
    · exact .inr ⟨hhost, by omega⟩

/-- A url with one `@` at most is taken apart where it is recognised. -/
theorem Recognised.taken (h : Recognised kind url scheme authority path)
    (hone : authority.count atSign ≤ 1) : Taken kind authority path := by
  have hhost := stripUser_eq_hostOf hone
  refine ⟨hhost ▸ h.host, h.path, fun hkind => ?_⟩
  cases h.form with
  | web => exact Kind.noConfusion hkind
  | ssh _ _ hport => exact hhost ▸ hport
  | scp => exact Kind.noConfusion hkind

/-- A recognised url is not left as it is when it is of ssh. -/
theorem Recognised.changed (h : Recognised .ssh url scheme authority path) (host : Str) :
    url ≠ webText scheme host path := by
  cases h.form with
  | ssh hscheme => exact webText_ne_ssh hscheme (.inr rfl)

end

/-- Web urls are stable and carry no credentials exactly when the authority has one `@`, but
for those without a host. -/
theorem web_url_clean_iff (url : Str) :
    Clean url ↔ ∀ kind scheme authority path, Form kind url scheme authority path → path ≠ [] →
      Plain kind authority := by
  constructor
  · intro ⟨hstable, hclean⟩ kind scheme authority path hform hpath
    by_cases hone : authority.count atSign ≤ 1
    · exact .inl hone
    have hstrip : stripUser authority ≠ [] := fun hnil => hone (stripUser_eq_nil.1 hnil).2
    by_cases ht : Taken kind authority path
    · have hor := (stable_iff hform ht).1 hstable
      exact hor.imp_right fun hend => ⟨hend.1, .inl hend.2⟩
    · -- only a colon keeps a url from being taken apart here
      obtain ⟨rfl, hcolon⟩ : kind = .ssh ∧ colon ∈ stripUser authority := by
        by_contra hno
        exact ht ⟨hstrip, hpath, fun hkind hcolon => hno ⟨hkind, hcolon⟩⟩
      by_cases hhost : hostOf authority = []
      · exact .inr ⟨hhost, .inr ⟨rfl, (mem_stripUser_iff (by omega) (by decide)).1 hcolon⟩⟩
      · obtain ⟨host, -, -, hweb⟩ := hclean _ _ _ _ ⟨hform, hhost, hpath⟩
        rw [gitUrlWeb_of_form hform, if_neg ht] at hweb
        exact absurd hweb (Recognised.changed ⟨hform, hhost, hpath⟩ _)
  · intro hplain
    constructor
    · by_cases hform : ∃ kind scheme authority path, Form kind url scheme authority path ∧
        Taken kind authority path
      · obtain ⟨kind, scheme, authority, path, hform, ht⟩ := hform
        rw [stable_iff hform ht]
        rcases hplain _ _ _ _ hform ht.2.1 with hone | ⟨hhost, htwo | ⟨hkind, hcolon⟩⟩
        · exact .inl hone
        · exact .inr ⟨hhost, htwo⟩
        · by_cases hone : authority.count atSign ≤ 1
          · exact .inl hone
          · exact absurd ((mem_stripUser_iff (by omega) (by decide)).2 hcolon) (ht.2.2 hkind)
      · rw [gitUrlWeb_of_not_form hform, gitUrlWeb_of_not_form hform]
    · intro kind scheme authority path hrec
      have hone : authority.count atSign ≤ 1 :=
        (hplain _ _ _ _ hrec.form hrec.path).resolve_right fun hend => hrec.host hend.1
      refine ⟨hostOf authority, ?_, atSign_not_mem_hostOf authority, ?_⟩
      · rw [← stripUser_eq_hostOf hone]
        exact stripUser_cases authority
      · rw [gitUrlWeb_of_form hrec.form, if_pos (hrec.taken hone), stripUser_eq_hostOf hone]

/-- What follows the first of two `@` is taken for the host, or for a host with a port. -/
theorem second_at_kept :
    gitUrlWeb (str "https://user:p@ss@github.com/A/B.git") = str "https://ss@github.com/A/B.git" ∧
      gitUrlWeb (str "https://ss@github.com/A/B.git") = str "https://github.com/A/B.git" ∧
      ¬Clean (str "https://user:p@ss@github.com/A/B.git") ∧
      gitUrlWeb (str "ssh://u:p@ss:w@host/A.git") = str "ssh://u:p@ss:w@host/A.git" ∧
      ¬Clean (str "ssh://u:p@ss:w@host/A.git") := by
  have hweb : gitUrlWeb (str "https://user:p@ss@github.com/A/B.git") =
      str "https://ss@github.com/A/B.git" := by decide +kernel
  have hagain : gitUrlWeb (str "https://ss@github.com/A/B.git") =
      str "https://github.com/A/B.git" := by decide +kernel
  have hssh : gitUrlWeb (str "ssh://u:p@ss:w@host/A.git") = str "ssh://u:p@ss:w@host/A.git" := by
    decide +kernel
  refine ⟨hweb, hagain, fun hclean => ?_, hssh, fun hclean => ?_⟩
  · have hstable := hclean.1
    rw [hweb, hagain] at hstable
    exact absurd hstable (by decide +kernel)
  · have hrec : Recognised .ssh (str "ssh://u:p@ss:w@host/A.git") https (str "u:p@ss:w@host")
        (str "A.git") := by
      refine ⟨?_, by decide +kernel, by decide +kernel⟩
      exact @Form.ssh ssh (str "u:p@ss:w@host") (str "A.git") (by decide +kernel)
        (by decide +kernel) (by decide +kernel)
    obtain ⟨host, -, -, hsame⟩ := hclean.2 _ _ _ _ hrec
    exact hrec.changed _ (hssh ▸ hsame)

end Spn.Git
