import Swifties.Dispatcher

/-!
# Routes of a configuration

The routes of a configuration are the locations of its first `server` block
whose type is known, each with its path stripped of trailing slashes.  The
dispatcher fills its table with them, first come first served, and finds the
handler of the longest nonempty path that is a prefix of the target.
-/

namespace Swifties

open BlockGrammar RoutingTable NginxConfigStatement

namespace RequestHandlerDispatcher

def isServer (statement : NginxConfigStatement) : Bool :=
  decide (statement.tokens = ["server".toList])

def isLocation (statement : NginxConfigStatement) : Bool :=
  decide (statement.tokens.head? = some "location".toList)

def serverBlock (config : NginxConfig) : NginxConfig :=
  ((config.find? isServer).bind childBlock).getD []

def locations (config : NginxConfig) : NginxConfig :=
  (serverBlock config).filter isLocation

def Complete (statement : NginxConfigStatement) : Prop :=
  3 ≤ statement.tokens.length ∧ statement.childBlock ≠ none

/-- The configurations on which the dispatcher finds all it reads. -/
structure Dispatchable (config : NginxConfig) : Prop where
  words : wellWorded config
  server : ∀ statement, config.find? isServer = some statement →
    statement.childBlock ≠ none
  location : ∀ statement ∈ locations config, Complete statement

def route? (statement : NginxConfigStatement) :
    Option (Text × RequestHandler) :=
  match statement.tokens, statement.childBlock with
  | _ :: pathUri :: handlerType :: _, some block =>
      let path := pathUri.stripTrailingSlashes
      match makeHandler path handlerType block with
      | some (some handler) => some (path, handler)
      | _ => none
  | _, _ => none

def routes (config : NginxConfig) : List (Text × RequestHandler) :=
  (locations config).filterMap route?

theorem isLocation_iff {statement : NginxConfigStatement} {first : Text}
    {arguments : List Text} (htokens : statement.tokens = first :: arguments) :
    isLocation statement = true ↔ first = "location".toList := by
  rw [isLocation, htokens, decide_eq_true_eq, List.head?_cons,
    Option.some_inj]

theorem isServer_iff {statement : NginxConfigStatement} {first : Text}
    {arguments : List Text} (htokens : statement.tokens = first :: arguments) :
    isServer statement = true ↔
      first = "server".toList ∧ arguments = [] := by
  rw [isServer, htokens, decide_eq_true_eq, List.cons.injEq]

theorem rootLoop_isSome {config : NginxConfig} (hwords : wellWorded config)
    (root : Text) : ∃ found, rootLoop root config = some found := by
  induction config generalizing root with
  | nil => exact ⟨root, rfl⟩
  | cons statement rest ih =>
      have hne : statement.tokens ≠ [] :=
        tokens_ne_nil hwords List.mem_cons_self
      rw [rootLoop]
      split
      next htokens => exact (hne htokens).elim
      next => exact ih hwords.2 _
      next => exact ih hwords.2 _

theorem makeHandler_isSome {config : NginxConfig}
    (hwords : wellWorded config) (pathUri handlerType : Text) :
    ∃ found, makeHandler pathUri handlerType config = some found := by
  obtain ⟨root, hroot⟩ := rootLoop_isSome hwords ['/']
  unfold makeHandler
  rw [hroot]
  split_ifs <;> exact ⟨_, rfl⟩

theorem registerPath_eq (handlers : Handlers) {pathUri handlerType : Text}
    {block : NginxConfig} {found : Option RequestHandler}
    (hfound : makeHandler pathUri.stripTrailingSlashes handlerType block =
      some found) :
    registerPath handlers pathUri handlerType block =
      some (match found with
        | none => (false, handlers)
        | some handler =>
            register handlers (pathUri.stripTrailingSlashes, handler)) := by
  simp only [registerPath, hfound, register]
  cases found <;> split_ifs <;> rfl

theorem registerLocations_eq {block : NginxConfig}
    (hwords : wellWorded block)
    (hcomplete : ∀ statement ∈ block.filter isLocation, Complete statement)
    (handlers : Handlers) :
    registerLocations handlers block =
      some (registerAll handlers
        ((block.filter isLocation).filterMap route?)) := by
  induction block generalizing handlers with
  | nil => rfl
  | cons statement rest ih =>
      have hrest : ∀ handlers, registerLocations handlers rest =
          some (registerAll handlers
            ((rest.filter isLocation).filterMap route?)) := by
        apply ih hwords.2
        intro other hother
        apply hcomplete other
        rw [List.filter_cons]
        split
        next => exact List.mem_cons_of_mem _ hother
        next => exact hother
      have hne : statement.tokens ≠ [] :=
        tokens_ne_nil hwords List.mem_cons_self
      rw [registerLocations]
      split
      next htokens => exact (hne htokens).elim
      next first arguments htokens =>
        have hiff := isLocation_iff htokens
        by_cases hfirst : first = "location".toList
        · have hlocation := hiff.mpr hfirst
          have hfilter := List.filter_cons_of_pos (l := rest) hlocation
          obtain ⟨hlength, hchild⟩ := hcomplete statement (by simp [hfilter])
          obtain ⟨block, hblock⟩ := Option.ne_none_iff_exists'.mp hchild
          obtain ⟨pathUri, handlerType, more, harguments⟩ :
              ∃ pathUri handlerType more,
                arguments = pathUri :: handlerType :: more := by
            rw [htokens] at hlength
            match arguments, hlength with
            | pathUri :: handlerType :: more, _ => exact ⟨_, _, _, rfl⟩
          obtain ⟨found, hfound⟩ := makeHandler_isSome
            (wellWorded_childBlock hwords List.mem_cons_self hblock)
            pathUri.stripTrailingSlashes handlerType
          have hroute : route? statement = found.map fun handler =>
              (pathUri.stripTrailingSlashes, handler) := by
            simp only [route?, htokens, harguments, hblock, hfound]
            cases found <;> rfl
          rw [hfilter, List.filterMap_cons, if_neg (not_not.mpr hfirst)]
          simp only [harguments, hblock, registerPath_eq handlers hfound,
            hroute]
          cases found with
          | none => simp [hrest]
          | some handler => simp [hrest, registerAll]
        · have hlocation : ¬ isLocation statement = true := by
            rwa [hiff]
          rw [if_pos hfirst, hrest, List.filter_cons_of_neg hlocation]

theorem registerServer_eq {config : NginxConfig}
    (hconfig : Dispatchable config) (handlers : Handlers) :
    registerServer handlers config =
      some (registerAll handlers (routes config)) := by
  obtain ⟨hwords, hserver, hcomplete⟩ := hconfig
  induction config with
  | nil => rfl
  | cons statement rest ih =>
      have hne : statement.tokens ≠ [] :=
        tokens_ne_nil hwords List.mem_cons_self
      rw [registerServer]
      split
      next htokens => exact (hne htokens).elim
      next first arguments htokens =>
        have hiff := isServer_iff htokens
        by_cases hfirst : first = "server".toList ∧ arguments = []
        · have hfind : (statement :: rest).find? isServer = some statement :=
            List.find?_cons_of_pos (hiff.mpr hfirst)
          obtain ⟨block, hblock⟩ := Option.ne_none_iff_exists'.mp
            (hserver statement hfind)
          have hserverBlock : serverBlock (statement :: rest) = block := by
            rw [serverBlock, hfind]
            simp [hblock]
          rw [if_pos hfirst]
          simp only [routes, locations, hserverBlock, hblock] at hcomplete ⊢
          exact registerLocations_eq
            (wellWorded_childBlock hwords List.mem_cons_self hblock)
            hcomplete handlers
        · have hfind : (statement :: rest).find? isServer =
              rest.find? isServer :=
            List.find?_cons_of_neg (by rwa [hiff])
          have hserverBlock : serverBlock (statement :: rest) =
              serverBlock rest := by
            rw [serverBlock, hfind]
            rfl
          rw [if_neg hfirst]
          simp only [hfind, routes, locations, hserverBlock]
            at hserver hcomplete ⊢
          exact ih hwords.2 hserver hcomplete

/-! ## What the dispatcher needs -/

theorem complete_of_registerLocations {handlers : Handlers}
    {block : NginxConfig} (hsome : registerLocations handlers block ≠ none) :
    ∀ statement ∈ block.filter isLocation, Complete statement := by
  induction block generalizing handlers with
  | nil => simp
  | cons statement rest ih =>
      rw [registerLocations] at hsome
      split at hsome
      next => exact (hsome rfl).elim
      next first arguments htokens =>
        have hiff := isLocation_iff htokens
        split at hsome
        next hfirst =>
          rw [List.filter_cons_of_neg (by rwa [hiff])]
          exact ih hsome
        next hfirst =>
          split at hsome
          next pathUri handlerType more block hblock =>
            split at hsome
            next => exact (hsome rfl).elim
            next registered table _ =>
              have hrest : registerLocations table rest ≠ none := by
                intro hnone
                simp [hnone] at hsome
              rw [List.filter_cons_of_pos (hiff.mpr (not_not.mp hfirst))]
              intro other hmem
              rcases List.mem_cons.mp hmem with rfl | hmem
              · refine ⟨by simp [htokens], by simp [hblock]⟩
              · exact ih hrest other hmem
          next => exact (hsome rfl).elim

theorem complete_of_registerServer {handlers : Handlers}
    {config : NginxConfig} (hsome : registerServer handlers config ≠ none) :
    (∀ statement, config.find? isServer = some statement →
        statement.childBlock ≠ none) ∧
      ∀ statement ∈ locations config, Complete statement := by
  induction config with
  | nil => simp [locations, serverBlock]
  | cons statement rest ih =>
      rw [registerServer] at hsome
      split at hsome
      next => exact (hsome rfl).elim
      next first arguments htokens =>
        have hiff := isServer_iff htokens
        split at hsome
        next hfirst =>
          have hfind : (statement :: rest).find? isServer = some statement :=
            List.find?_cons_of_pos (hiff.mpr hfirst)
          split at hsome
          next => exact (hsome rfl).elim
          next block hblock =>
            rw [locations, serverBlock, hfind]
            refine ⟨?_, ?_⟩
            · rintro other ⟨⟩
              simp [hblock]
            · simpa [hblock] using complete_of_registerLocations hsome
        next hfirst =>
          have hfind : (statement :: rest).find? isServer =
              rest.find? isServer :=
            List.find?_cons_of_neg (by rwa [hiff])
          rw [locations, serverBlock, hfind]
          exact ih hsome

theorem initRequestHandlers_ne_none_iff {config : NginxConfig}
    (hwords : wellWorded config) :
    initRequestHandlers ∅ config ≠ none ↔ Dispatchable config := by
  constructor
  · intro hsome
    have hserver : registerServer ∅ config ≠ none := by
      intro hnone
      simp [initRequestHandlers, hnone] at hsome
    obtain ⟨hblock, hcomplete⟩ := complete_of_registerServer hserver
    exact ⟨hwords, hblock, hcomplete⟩
  · intro hconfig
    simp [initRequestHandlers, registerServer_eq hconfig]

/-! ## Which handler a target finds -/

/-- The table of a configuration: its routes, and the 404 handler for `/` when
no route has that path. -/
def HoldsRoutes (config : NginxConfig) (handlers : Handlers) : Prop :=
  ∀ path : Text, handlers[path]? =
    (((routes config).find? fun route => decide (route.1 = path)).map
      Prod.snd).or (if path = ['/'] then some .notFound else none)

theorem initRequestHandlers_eq {config : NginxConfig}
    (hconfig : Dispatchable config) :
    ∃ handlers,
      initRequestHandlers ∅ config =
        some (((routes config).map Prod.fst).toFinset.card, handlers) ∧
      HoldsRoutes config handlers := by
  have hcount := registerAll_fst (∅ : Handlers) (routes config)
  have hlookup := getElem?_registerAll (∅ : Handlers) (routes config)
  simp only [Std.TreeMap.getElem?_emptyc, Finset.filter_true,
    Option.none_or] at hcount hlookup
  rw [initRequestHandlers, registerServer_eq hconfig, Option.map_some, hcount]
  refine ⟨_, rfl, fun path => ?_⟩
  rw [Std.TreeMap.contains_eq_isSome_getElem?]
  rw [← hlookup]
  by_cases hpath : path = ['/']
  · subst hpath
    cases hfound : (registerAll (∅ : Handlers) (routes config)).2[['/']]? with
    | none => simp
    | some handler => simp [hfound]
  · have hne : ['/'] ≠ path := Ne.symm hpath
    split <;> simp [getElem?_insert, hne]

def Matches (config : NginxConfig) (uri path : Text) : Prop :=
  path ∈ (routes config).map Prod.fst ∧ path ≠ [] ∧ path <+: uri

/-- The first location of a known type that has this stripped path. -/
def FirstRoute (config : NginxConfig) (path : Text)
    (handler : RequestHandler) : Prop :=
  ∃ before statement after,
    locations config = before ++ statement :: after ∧
      route? statement = some (path, handler) ∧
      ∀ earlier ∈ before, ∀ route, route? earlier = some route →
        route.1 ≠ path

/-- The handler of the first location with the longest path that matches, or
the 404 handler where none does. -/
inductive Serves (config : NginxConfig) (uri : Text) : RequestHandler → Prop
  | route {path : Text} {handler : RequestHandler} :
      Matches config uri path →
      (∀ other, Matches config uri other → other.length ≤ path.length) →
      FirstRoute config path handler → Serves config uri handler
  | fallback : (∀ path, ¬ Matches config uri path) →
      Serves config uri .notFound

theorem firstRoute_iff {config : NginxConfig} {path : Text}
    {handler : RequestHandler} :
    FirstRoute config path handler ↔
      ((routes config).find? fun route => decide (route.1 = path)).map
        Prod.snd = some handler := by
  constructor
  · rintro ⟨before, statement, after, hsplit, hroute, hearlier⟩
    have hnone : (before.filterMap route?).find?
        (fun route => decide (route.1 = path)) = none := by
      rw [List.find?_eq_none]
      intro route hmem
      obtain ⟨earlier, hbefore, hsome⟩ := List.mem_filterMap.mp hmem
      simpa using hearlier earlier hbefore route hsome
    simp [routes, hsplit, List.filterMap_append, List.find?_append, hnone,
      hroute]
  · intro hfind
    obtain ⟨route, hroute, rfl⟩ := Option.map_eq_some_iff.mp hfind
    rw [routes, List.find?_filterMap, Option.bind_eq_some_iff] at hroute
    obtain ⟨statement, hstatement, hsome⟩ := hroute
    obtain ⟨hpath, before, after, hsplit, hbefore⟩ :=
      List.find?_eq_some_iff_append.mp hstatement
    rw [hsome] at hpath
    have hpath' : route.1 = path := by simpa using hpath
    refine ⟨before, statement, after, hsplit, ?_, ?_⟩
    · rw [hsome, ← hpath']
    · intro earlier hmem other hother
      have hnot := hbefore earlier hmem
      rw [hother] at hnot
      simpa using hnot

theorem serves_of_longestMatch {config : NginxConfig} {handlers : Handlers}
    (hlookup : HoldsRoutes config handlers)
    {uri path : Text} {handler : RequestHandler}
    (huri : ['/'] <+: uri) (hhandler : handlers[path]? = some handler)
    (hlongest : IsLongestPrefix handlers uri path) :
    Serves config uri handler := by
  have hle : ∀ other, Matches config uri other →
      other.length ≤ path.length := by
    intro other ⟨hmem, _, hstart⟩
    obtain ⟨route, hroute, rfl⟩ := List.mem_map.mp hmem
    have hfind : ((routes config).find?
        fun r => decide (r.1 = route.1)).isSome = true := by
      rw [List.find?_isSome]
      exact ⟨route, hroute, by simp⟩
    obtain ⟨found, hfound⟩ := Option.isSome_iff_exists.mp hfind
    apply hlongest.longest route.1 found.2 _ hstart
    rw [hlookup, hfound]
    rfl
  cases hfind : (routes config).find?
      (fun route => decide (route.1 = path)) with
  | some route =>
      have hpath : route.1 = path := by simpa using List.find?_some hfind
      have hmem := List.mem_of_find?_eq_some hfind
      rw [hlookup, hfind] at hhandler
      refine .route ⟨?_, hlongest.ne_nil, hlongest.isPrefix⟩ hle ?_
      · exact List.mem_map.mpr ⟨route, hmem, hpath⟩
      · rw [firstRoute_iff, hfind]
        simpa using hhandler
  | none =>
      rw [hlookup, hfind] at hhandler
      by_cases hslash : path = ['/']
      · simp only [Option.map_none, hslash, if_true, Option.none_or,
          Option.some.injEq] at hhandler
        subst hhandler
        refine .fallback fun other hother => ?_
        have hlength := hle other hother
        obtain ⟨hmem, hne, hstart⟩ := hother
        have hpos := List.length_pos_iff.mpr hne
        rw [hslash] at hlength
        have heq : other = ['/'] :=
          (List.prefix_of_prefix_length_le hstart huri hlength).eq_of_length
            (le_antisymm hlength hpos)
        obtain ⟨route, hroute, hpath⟩ := List.mem_map.mp hmem
        have hnot := List.find?_eq_none.mp hfind route hroute
        simp [hpath, heq, hslash] at hnot
      · simp [hslash] at hhandler

theorem getRequestHandler_serves {config : NginxConfig}
    (hconfig : Dispatchable config) :
    ∃ handlers,
      initRequestHandlers ∅ config =
        some (((routes config).map Prod.fst).toFinset.card, handlers) ∧
      (∀ target : Text, target.head? = some '/' →
        ∃ handler, getRequestHandler handlers target = some handler ∧
          Serves config target.stripTrailingSlashes handler) ∧
      ∀ config' count handlers', Dispatchable config' →
        (locations config).Perm (locations config') →
        ((routes config).map Prod.fst).Nodup →
        initRequestHandlers ∅ config' = some (count, handlers') →
        ∀ target, getRequestHandler handlers' target =
          getRequestHandler handlers target := by
  obtain ⟨handlers, hinit, hlookup⟩ := initRequestHandlers_eq hconfig
  refine ⟨handlers, hinit, ?_, ?_⟩
  · intro target htarget
    have huri : ['/'] <+: target.stripTrailingSlashes := by
      rw [← Text.stripTrailingSlashes_head?] at htarget
      cases huri : target.stripTrailingSlashes with
      | nil => simp [huri] at htarget
      | cons c uri =>
          rw [huri, List.head?_cons, Option.some.injEq] at htarget
          simp [htarget]
    have hslash : ∃ handler, handlers[['/']]? = some handler := by
      rw [hlookup, if_pos rfl, ← Option.isSome_iff_exists]
      simp
    obtain ⟨slashHandler, hslash⟩ := hslash
    obtain ⟨handler, hhandler⟩ := longestMatch_isSome hslash (by simp) huri
    obtain ⟨path, hpath, hlongest⟩ := longestMatch_eq_some_iff.mp hhandler
    exact ⟨handler, hhandler,
      serves_of_longestMatch hlookup huri hpath hlongest⟩
  · intro config' count handlers' hconfig' hperm hnodup hinit' target
    obtain ⟨same, hsame, hlookup'⟩ := initRequestHandlers_eq hconfig'
    rw [hinit', Option.some.injEq, Prod.mk.injEq] at hsame
    obtain ⟨rfl, rfl⟩ := hsame
    have hroutes : (routes config).Perm (routes config') :=
      hperm.filterMap route?
    apply longestMatch_congr
    intro path
    rw [hlookup', hlookup, find?_perm hroutes hnodup]

theorem getRequestHandler_serves_echo :
    let config : NginxConfig :=
      [.block ["server".toList]
        [.block ["location".toList, "/echo/".toList, "EchoHandler".toList] [],
          .block ["location".toList, ['/'], "HealthHandler".toList] []]]
    ∃ count handlers, initRequestHandlers ∅ config = some (count, handlers) ∧
      ∃ handler,
        getRequestHandler handlers "/echo/x".toList = some handler ∧
          Serves config "/echo/x".toList handler := by
  intro config
  have hconfig : Dispatchable config := by
    refine ⟨by simp [config, wellWorded, statementWellWorded], ?_, ?_⟩
    · intro statement hstatement
      have hmem := List.mem_of_find?_eq_some hstatement
      simp only [config, List.mem_singleton] at hmem
      simp [hmem]
    · intro statement hstatement
      have hmem : statement ∈ serverBlock config :=
        List.mem_of_mem_filter hstatement
      change statement ∈ [_, _] at hmem
      simp only [List.mem_cons, List.not_mem_nil, or_false] at hmem
      rcases hmem with rfl | rfl <;> simp [Complete]
  obtain ⟨handlers, hinit, hserves, _⟩ := getRequestHandler_serves hconfig
  exact ⟨_, handlers, hinit, hserves "/echo/x".toList rfl⟩

/-- A location whose path is the empty string is registered, but no target
finds it, although it is a prefix of every one. -/
theorem not_getRequestHandler_empty_path :
    ¬ ∀ (config : NginxConfig) (count : ℕ) (handlers : Handlers)
        (target path : Text) (handler : RequestHandler),
      Dispatchable config →
      initRequestHandlers ∅ config = some (count, handlers) →
      target.head? = some '/' → FirstRoute config path handler →
      path <+: Text.stripTrailingSlashes target →
      (∀ other ∈ (routes config).map Prod.fst,
        other <+: Text.stripTrailingSlashes target →
          other.length ≤ path.length) →
      getRequestHandler handlers target = some handler := by
  intro hclaim
  let config : NginxConfig :=
    [.block ["server".toList]
      [.block ["location".toList, [], "EchoHandler".toList] []]]
  have hconfig : Dispatchable config := by
    refine ⟨by simp [config, wellWorded, statementWellWorded], ?_, ?_⟩
    · intro statement hstatement
      have hmem := List.mem_of_find?_eq_some hstatement
      simp only [config, List.mem_singleton] at hmem
      simp [hmem]
    · intro statement hstatement
      have hmem : statement ∈ serverBlock config :=
        List.mem_of_mem_filter hstatement
      change statement ∈ [_] at hmem
      rw [List.mem_singleton] at hmem
      simp [hmem, Complete]
  have hfirst : FirstRoute config [] .echo := firstRoute_iff.mpr (by rfl)
  obtain ⟨handlers, hinit, hlookup⟩ := initRequestHandlers_eq hconfig
  have hecho := hclaim config _ handlers "/x".toList [] .echo hconfig hinit rfl
    hfirst (by simp) (by decide)
  have hinit' : (initRequestHandlers ∅ config).map
      (fun result => getRequestHandler result.2 "/x".toList) =
        some (some .notFound) := by decide
  rw [hinit, Option.map_some, hecho] at hinit'
  simp at hinit'

end RequestHandlerDispatcher

end Swifties
