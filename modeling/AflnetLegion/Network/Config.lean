import AflnetLegion.Dictionary.Encoding
import AflnetLegion.Lib.CString

/-! The option that names the server. -/

namespace aflnet

open CString

/-- The protocols that can be set. -/
def PRO_TCP : UInt8 := 0
def PRO_UDP : UInt8 := 1

/-- The variables that the option sets: the protocol, the address of the server and its port. -/
structure NetConfig where
  protocol : UInt8
  ip_address : Option (List UInt8)
  port : UInt32
  deriving DecidableEq, Repr

/-- A local array, with the bytes that happen to be there. -/
abbrev Local (size : Nat) := { bytes : List UInt8 // bytes.length = size }

/-- Up to `n` bytes of a string, filled up with NULs if it is shorter. A string of `n` bytes
gets no NUL behind it, and the rest of the buffer stays as it is. -/
def strncpy (dst src : List UInt8) (n : Nat) : List UInt8 :=
  src.take n ++ List.replicate (n - src.length) 0 ++ dst.drop n

/-- A string is cut off at its first white space, over which the source writes a NUL. -/
def str_rtrim (a_str : List UInt8) : List UInt8 := a_str.takeWhile fun c => c ≠ 10 ∧ c ≠ 9 ∧ c ≠ 32

/-- The tokens that `strtok` finds; delimiters next to each other have none between them, so no
token is empty. -/
def strtok (a_delim : UInt8) (a_str : List UInt8) : List (List UInt8) := (a_str.splitOn a_delim).filter (· ≠ [])

/-- The tokens, if there are as many as expected. The source counts them in a copy of the string
first, and otherwise returns an error. -/
def str_split (a_str : List UInt8) (a_delim : UInt8) (a_count : Nat) : Option (List (List UInt8)) :=
  if (strtok a_delim a_str).length ≠ a_count then none else some (strtok a_delim a_str)

/-- The port is an `atoi`, as the level of a dictionary line is, and cut to 32 bits. The port 0
is rejected, which is also what `atoi` makes of a text without digits. -/
def set_server (protocol : UInt8) (address number : List UInt8) : Nat × NetConfig :=
  let config : NetConfig := { protocol, ip_address := some address, port := line_level number }
  if config.port = 0 then (1, config) else (0, config)

/-- The tokens of an option. Anything but a known scheme, an address and a port is rejected, and
the variables stay. -/
def use_tokens (tokens : List (List UInt8)) (config : NetConfig) : Nat × NetConfig :=
  match tokens with
  | [scheme, address, number] =>
    if scheme = [116, 99, 112, 58] then set_server PRO_TCP address number
    else if scheme = [117, 100, 112, 58] then set_server PRO_UDP address number
    else (1, config)
  | _ => (1, config)

/-- What becomes of the string in the buffer: white space is cut off, and the rest is split at
the slashes into the protocol, the address and the port. -/
def parse_text (text : List UInt8) (config : NetConfig) : Nat × NetConfig :=
  match str_split (str_rtrim text) 47 3 with
  | some tokens => use_tokens tokens config
  | none => (1, config)

/-- An option is copied to the buffer and parsed there. The copy has no NUL of its own, so the
text is what the buffer holds up to the first NUL it happens to have. -/
def parse_net_config (buf : Local 80) (net_config : List UInt8) (config : NetConfig) : Except Fault (Nat × NetConfig) :=
  if net_config.length > 80 then .ok (1, config)
  else do
    let text ← CString.text (strncpy buf.val net_config net_config.length)
    pure (parse_text text config)

/-- An option `tcp://A/P` or `udp://A/P`, with an address that has no slash, white space or NUL
and a port that is a positive number. -/
structure ServerOption where
  udp : Bool
  address : List UInt8
  nonempty : address ≠ []
  plain : ∀ c ∈ address, c ≠ 0 ∧ c ≠ 47 ∧ is_space c = false
  number : WrittenLevel
  positive : number.value ≠ 0

namespace ServerOption

/-- The scheme of an option, up to the first slash. -/
def scheme (server : ServerOption) : List UInt8 := if server.udp then [117, 100, 112, 58] else [116, 99, 112, 58]

/-- The option as it is given on the command line. -/
def text (server : ServerOption) : List UInt8 :=
  [47].intercalate [server.scheme, [], server.address, server.number.digits]

/-- What the option means. -/
def config (server : ServerOption) : NetConfig :=
  { protocol := if server.udp then PRO_UDP else PRO_TCP, ip_address := some server.address, port := server.number.value }

end ServerOption

/-- One result for every content of the buffer, and for a well-formed option the
server that it names. -/
structure ParsedByText (net_config : List UInt8) (config : NetConfig) : Prop where
  alike : ∃ result, ∀ buf, parse_net_config buf net_config config = .ok result
  named : ∀ server : ServerOption, server.text = net_config → ∀ buf, parse_net_config buf net_config config = .ok (0, server.config)

variable {net_config : List UInt8} {config : NetConfig}

/-- A string that is not shorter than what is copied is copied without a NUL. -/
theorem strncpy_all (buf net_config : List UInt8) :
    strncpy buf net_config net_config.length = net_config ++ buf.drop net_config.length := by
  simp [strncpy]

/-- For options of at most 80 bytes nothing is written behind the buffer, and all depends on
where the next NUL is. -/
theorem parse_net_config_of_le (buf : Local 80) (hlength : net_config.length ≤ 80) :
    parse_net_config buf net_config config =
      (CString.text (net_config ++ buf.val.drop net_config.length)).map fun text => parse_text text config := by
  rw [parse_net_config, if_neg (Nat.not_lt.mpr hlength), strncpy_all]
  rfl

/-- Where no NUL was in the buffer, the end of the string is looked for behind it. -/
theorem parse_net_config_unterminated (hfree : 0 ∉ net_config) (hlength : net_config.length ≤ 80) :
    parse_net_config ⟨List.replicate 80 1, List.length_replicate⟩ net_config config = .error .unterminated := by
  have hbehind : 0 ∉ net_config ++ (List.replicate 80 1).drop net_config.length := by
    rw [List.drop_replicate, List.mem_append]
    rintro (hmem | hmem)
    · exact hfree hmem
    · simpa using List.eq_of_mem_replicate hmem
  rw [parse_net_config_of_le _ hlength, text_of_not_mem hbehind]
  rfl

/-- Where a NUL happens to follow the copy, the option alone decides. -/
theorem parse_net_config_terminated (buf : Local 80) (hfree : 0 ∉ net_config) (hlength : net_config.length ≤ 80)
    (hnul : (buf.val.drop net_config.length).head? = some 0) :
    parse_net_config buf net_config config = .ok (parse_text net_config config) := by
  obtain ⟨rest, hrest⟩ := List.head?_eq_some_iff.mp hnul
  rw [parse_net_config_of_le _ hlength, hrest, text_append_nul hfree]
  rfl

namespace ServerOption

variable (server : ServerOption)

/-- The scheme has no slash, no white space and no NUL. -/
theorem scheme_plain : ∀ c ∈ server.scheme, c ≠ 0 ∧ c ≠ 47 ∧ is_space c = false := by
  rw [scheme]
  split <;> simp [is_space]

theorem digits_plain : ∀ c ∈ server.number.digits, c ≠ 0 ∧ c ≠ 47 ∧ is_space c = false := by
  intro c hc
  have hdigit := server.number.all_digits c hc
  refine ⟨?_, ?_, ?_⟩
  · rintro rfl
    exact absurd hdigit (by decide)
  · rintro rfl
    exact absurd hdigit (by decide)
  · cases hspace : is_space c with
    | false => rfl
    | true => exact absurd hdigit (by simp [(is_space_not_digit (Or.inl hspace)).1])

/-- An option is its scheme, two slashes, the address, a slash and the port. -/
theorem text_eq : server.text = server.scheme ++ 47 :: 47 :: (server.address ++ 47 :: server.number.digits) := by
  simp [text, List.intercalate]

/-- An option has no NUL and no white space. -/
theorem text_plain : ∀ c ∈ server.text, c ≠ 0 ∧ is_space c = false := by
  intro c hc
  simp only [text_eq, List.mem_append, List.mem_cons] at hc
  rcases hc with hscheme | rfl | rfl | haddress | rfl | hdigit
  · exact ⟨(server.scheme_plain c hscheme).1, (server.scheme_plain c hscheme).2.2⟩
  · decide
  · decide
  · exact ⟨(server.plain c haddress).1, (server.plain c haddress).2.2⟩
  · decide
  · exact ⟨(server.digits_plain c hdigit).1, (server.digits_plain c hdigit).2.2⟩

/-- The three tokens of a well-formed option set the variables as the option says. -/
theorem use_tokens_eq (config : NetConfig) :
    use_tokens [server.scheme, server.address, server.number.digits] config = (0, server.config) := by
  have hport := server.positive
  rw [ServerOption.config, scheme]
  cases server.udp <;> simp [use_tokens, set_server, server.number.line_level_digits, hport]

end ServerOption

theorem str_rtrim_of_plain {text : List UInt8} (h : ∀ c ∈ text, is_space c = false) : str_rtrim text = text := by
  apply List.takeWhile_eq_self_iff.mpr
  intro c hc
  have hspace := h c hc
  simp only [ne_eq, decide_eq_true_eq]
  refine ⟨?_, ?_, ?_⟩
  all_goals
    rintro rfl
    exact absurd hspace (by decide)

/-- `strtok` finds the parts again, but for the empty ones. -/
theorem strtok_intercalate {parts : List (List UInt8)} (hparts : ∀ part ∈ parts, 47 ∉ part) (hne : parts ≠ []) :
    strtok 47 ([47].intercalate parts) = parts.filter (· ≠ []) := by
  rw [strtok, List.splitOn_intercalate 47 hparts hne]

namespace ServerOption

variable (server : ServerOption) (config : NetConfig)

theorem scheme_ne_nil : server.scheme ≠ [] := by
  rw [scheme]
  split <;> simp

/-- The tokens of an option with more behind it. -/
theorem strtok_append {more : List (List UInt8)} (hmore : ∀ part ∈ more, 47 ∉ part) :
    strtok 47 ([47].intercalate ([server.scheme, [], server.address, server.number.digits] ++ more)) =
      [server.scheme, server.address, server.number.digits] ++ more.filter (· ≠ []) := by
  have hparts : ∀ part ∈ [server.scheme, [], server.address, server.number.digits] ++ more, 47 ∉ part := by
    intro part hpart
    simp only [List.mem_append, List.mem_cons, List.not_mem_nil, or_false] at hpart
    rcases hpart with (rfl | rfl | rfl | rfl) | hpart
    · exact fun h => (server.scheme_plain 47 h).2.1 rfl
    · exact List.not_mem_nil
    · exact fun h => (server.plain 47 h).2.1 rfl
    · exact fun h => (server.digits_plain 47 h).2.1 rfl
    · exact hmore part hpart
  rw [strtok_intercalate hparts (by simp), List.filter_append]
  simp [server.scheme_ne_nil, server.nonempty, server.number.nonempty]

theorem parse_text_eq : parse_text server.text config = (0, server.config) := by
  have htokens := server.strtok_append (List.forall_mem_nil _)
  rw [List.append_nil] at htokens
  rw [parse_text, str_rtrim_of_plain fun c hc => (server.text_plain c hc).2, str_split, text, htokens, if_neg (by simp)]
  exact server.use_tokens_eq config

/-- One token more, and the option is rejected. -/
theorem parse_text_append : parse_text (server.text ++ [47, 49]) config = (1, config) := by
  have htext : server.text ++ [47, 49] = [47].intercalate ([server.scheme, [], server.address, server.number.digits] ++ [[49]]) := by
    simp [text, List.intercalate]
  have hspace : ∀ c ∈ server.text ++ [47, 49], is_space c = false := by
    intro c hc
    cases List.mem_append.mp hc with
    | inl hmem => exact (server.text_plain c hmem).2
    | inr hmem =>
      have hmore : c = 47 ∨ c = 49 := by simpa using hmem
      cases hmore with
      | inl hslash => simp [hslash, is_space]
      | inr hdigit => simp [hdigit, is_space]
  rw [parse_text, str_rtrim_of_plain hspace, str_split, htext, server.strtok_append (by simp), if_pos (by simp)]

end ServerOption

/-- A well-formed option is taken as it is meant where a NUL happens to follow its copy. -/
theorem parse_server (server : ServerOption) (config : NetConfig) (buf : Local 80) (hlength : server.text.length ≤ 80)
    (hnul : (buf.val.drop server.text.length).head? = some 0) :
    parse_net_config buf server.text config = .ok (0, server.config) := by
  have hfree : 0 ∉ server.text := fun h => (server.text_plain 0 h).1 rfl
  rw [parse_net_config_terminated buf hfree hlength hnul, server.parse_text_eq]

/-- It is rejected where one more token happens to follow it. -/
theorem parse_server_rejected (server : ServerOption) (config : NetConfig) (hlength : server.text.length < 78) :
    ∃ buf, parse_net_config buf server.text config = .ok (1, config) := by
  have hfree : 0 ∉ server.text ++ [47, 49] := by
    simpa using fun h => (server.text_plain 0 h).1 rfl
  refine ⟨⟨List.replicate server.text.length 1 ++ ([47, 49] ++ List.replicate (78 - server.text.length) 0), by simp; omega⟩, ?_⟩
  obtain ⟨rest, hrest⟩ : ∃ rest, List.replicate (78 - server.text.length) (0 : UInt8) = 0 :: rest := by
    obtain ⟨n, hn⟩ := Nat.exists_eq_succ_of_ne_zero (n := 78 - server.text.length) (by omega)
    exact ⟨List.replicate n 0, by rw [hn, List.replicate_succ]⟩
  rw [parse_net_config_of_le _ (by omega), List.drop_append_of_le_length (by simp), List.drop_replicate, hrest]
  rw [Nat.sub_self, List.replicate_zero, List.nil_append, ← List.append_assoc, text_append_nul hfree]
  exact congrArg Except.ok (server.parse_text_append config)

/-- For every option of at most 80 characters there is a content of the buffer whose bytes
behind the copy have no end. `strncpy` copies as many characters as the option has, so the NUL
behind them is never written. -/
theorem not_parsed_by_text (net_config : List UInt8) (config : NetConfig) (hfree : 0 ∉ net_config)
    (hlength : net_config.length ≤ 80) : ¬ParsedByText net_config config := by
  intro h
  obtain ⟨result, hresult⟩ := h.alike
  have hrun := hresult ⟨List.replicate 80 1, List.length_replicate⟩
  rw [parse_net_config_unterminated hfree hlength] at hrun
  cases hrun

/-- `tcp://127.0.0.1/80` -/
def local_server : List UInt8 := [116, 99, 112, 58, 47, 47, 49, 50, 55, 46, 48, 46, 48, 46, 49, 47, 56, 48]

/-- The variables before the option is parsed. -/
def no_server : NetConfig := { protocol := 0, ip_address := none, port := 0 }

/-- For this option what happens to be in the buffer decides. -/
theorem local_server_not_parsed_by_text : ¬ParsedByText local_server no_server :=
  not_parsed_by_text local_server no_server (by decide) (by decide)

/-- A digit that was in the buffer becomes a digit of the port. -/
theorem port_from_buffer : ¬ParsedByText local_server no_server ∧
    parse_net_config ⟨List.replicate 80 0, rfl⟩ local_server no_server =
      .ok (0, { protocol := PRO_TCP, ip_address := some [49, 50, 55, 46, 48, 46, 48, 46, 49], port := 80 }) ∧
    parse_net_config ⟨List.replicate 18 0 ++ 56 :: List.replicate 61 0, rfl⟩ local_server no_server =
      .ok (0, { protocol := PRO_TCP, ip_address := some [49, 50, 55, 46, 48, 46, 48, 46, 49], port := 808 }) := by
  refine ⟨?_, rfl, rfl⟩
  intro h
  obtain ⟨result, hresult⟩ := h.alike
  have hsame := (hresult ⟨List.replicate 80 0, rfl⟩).trans
    (hresult ⟨List.replicate 18 0 ++ 56 :: List.replicate 61 0, rfl⟩).symm
  revert hsame
  decide

end aflnet
