import Swifties.Confinement
import Swifties.Routing

/-!
# Stored prefixes of registered handlers

A static or API handler keeps the path it was registered at and takes that many
characters off the target on its own.  The dispatcher looked for the path in a
copy of the target without trailing slashes, so the raw target begins with it as
well, and what the handler takes off is the path.
-/

namespace Swifties

open BlockGrammar RoutingTable

namespace Text

theorem dropSlashes_suffix (s : Text) : dropSlashes s <:+ s := by
  fun_induction dropSlashes s with
  | case1 c rest ih => exact ih.trans (List.suffix_cons _ _)
  | case2 s => exact List.suffix_rfl

theorem stripTrailingSlashes_prefix (s : Text) :
    s.stripTrailingSlashes <+: s := by
  have hsuffix := dropSlashes_suffix s.reverse
  rwa [← List.reverse_prefix, List.reverse_reverse] at hsuffix

/-! ## Paths up to repeated slashes -/

/-- A path with one slash for each run of them. -/
def squeezeSlashes : Text → Text
  | [] => []
  | c :: s =>
      if c = '/' ∧ s.head? = some '/' then squeezeSlashes s
      else c :: squeezeSlashes s

theorem squeezeSlashes_cons_cons (c d : Char) (s : Text) :
    squeezeSlashes (c :: d :: s) =
      if c = '/' ∧ d = '/' then squeezeSlashes (d :: s)
      else c :: squeezeSlashes (d :: s) := by
  simp only [squeezeSlashes.eq_2 c, List.head?_cons, Option.some_inj]

theorem squeezeSlashes_append (s : Text) {t : Text}
    (ht : t.head? ≠ some '/') :
    squeezeSlashes (s ++ t) = squeezeSlashes s ++ squeezeSlashes t := by
  induction s with
  | nil => rfl
  | cons c s ih =>
      have hhead : (s ++ t).head? = some '/' ↔ s.head? = some '/' := by
        cases s with
        | nil => simpa using ht
        | cons d s => simp
      simp only [List.cons_append, squeezeSlashes, hhead, ih]
      split <;> rfl

theorem squeezeSlashes_concat_slash (s : Text) :
    squeezeSlashes (s ++ ['/']) =
      if s.getLast? = some '/' then squeezeSlashes s
      else squeezeSlashes s ++ ['/'] := by
  induction s with
  | nil => rfl
  | cons c s ih =>
      cases s with
      | nil => by_cases hc : c = '/' <;> simp [squeezeSlashes, hc]
      | cons d s =>
          rw [List.cons_append, List.cons_append, squeezeSlashes_cons_cons,
            ← List.cons_append, ih, List.getLast?_cons_cons,
            squeezeSlashes_cons_cons]
          split_ifs <;> rfl

theorem squeezeSlashes_slash_iff (s : Text) {t : Text}
    (ht : t.head? ≠ some '/') :
    squeezeSlashes (s ++ t) = squeezeSlashes (s ++ '/' :: t) ↔
      s.getLast? = some '/' := by
  have hslash : s ++ '/' :: t = (s ++ ['/']) ++ t := by simp
  rw [hslash, squeezeSlashes_append _ ht, squeezeSlashes_append _ ht,
    List.append_left_inj, squeezeSlashes_concat_slash]
  split
  next hlast => exact iff_of_true rfl hlast
  next hlast => exact iff_of_false (by simp) hlast

end Text

/-! ## The prefix is the path -/

def RequestHandler.pathPrefix? : RequestHandler → Option Text
  | .static handler => some handler.pathPrefix
  | .api handler => some handler.pathPrefix
  | _ => none

theorem RequestHandlerAPI.removePrefix_append (handler : RequestHandlerAPI)
    (rest : Text) :
    handler.removePrefix (handler.pathPrefix ++ rest) = some rest := by
  simp [RequestHandlerAPI.removePrefix]

namespace RequestHandlerDispatcher

/-- Every handler with a prefix is stored at that prefix. -/
def StoresPrefixes (handlers : Handlers) : Prop :=
  ∀ (path : Text) (handler : RequestHandler) (stored : Text),
    handlers[path]? = some handler → handler.pathPrefix? = some stored →
    stored = path

theorem storesPrefixes_empty : StoresPrefixes ∅ := by
  intro path handler stored hhandler
  simp at hhandler

theorem StoresPrefixes.insert {handlers : Handlers}
    (hstores : StoresPrefixes handlers) {path : Text}
    {handler : RequestHandler}
    (hsame : ∀ stored, handler.pathPrefix? = some stored → stored = path) :
    StoresPrefixes (handlers.insert path handler) := by
  intro other found stored hfound hstored
  rw [getElem?_insert] at hfound
  split at hfound
  next heq =>
    cases hfound
    rw [← heq]
    exact hsame stored hstored
  next => exact hstores other found stored hfound hstored

theorem makeHandler_pathPrefix {pathUri handlerType : Text}
    {block : NginxConfig} {handler : RequestHandler} {stored : Text}
    (hmake : makeHandler pathUri handlerType block = some (some handler))
    (hstored : handler.pathPrefix? = some stored) : stored = pathUri := by
  unfold makeHandler at hmake
  split_ifs at hmake
  case pos =>
    obtain ⟨root, _, hroot⟩ := Option.map_eq_some_iff.mp hmake
    cases hroot
    cases hstored
    rfl
  case pos =>
    cases hmake
    cases hstored
  case pos =>
    obtain ⟨root, _, hroot⟩ := Option.map_eq_some_iff.mp hmake
    cases hroot
    cases hstored
    rfl
  all_goals
    cases hmake
    try cases hstored

theorem StoresPrefixes.registerPath {handlers table : Handlers}
    (hstores : StoresPrefixes handlers) {pathUri handlerType : Text}
    {block : NginxConfig} {registered : Bool}
    (hregister : registerPath handlers pathUri handlerType block =
      some (registered, table)) : StoresPrefixes table := by
  unfold RequestHandlerDispatcher.registerPath at hregister
  simp only at hregister
  split at hregister
  next =>
    cases hregister
    exact hstores
  next =>
    split at hregister
    next => cases hregister
    next =>
      cases hregister
      exact hstores
    next handler hmake =>
      cases hregister
      apply hstores.insert
      intro stored hstored
      exact makeHandler_pathPrefix hmake hstored

theorem StoresPrefixes.registerLocations {handlers table : Handlers}
    (hstores : StoresPrefixes handlers) {block : NginxConfig} {count : ℕ}
    (hregister : registerLocations handlers block = some (count, table)) :
    StoresPrefixes table := by
  induction block generalizing handlers count with
  | nil =>
      cases hregister
      exact hstores
  | cons statement rest ih =>
      rw [RequestHandlerDispatcher.registerLocations] at hregister
      split at hregister
      next => cases hregister
      next first arguments _ =>
        split at hregister
        next => exact ih hstores hregister
        next =>
          split at hregister
          next pathUri handlerType more block _ =>
            split at hregister
            next => cases hregister
            next registered between hpath =>
              obtain ⟨⟨others, last⟩, hrest, hlast⟩ :=
                Option.map_eq_some_iff.mp hregister
              cases hlast
              exact ih (hstores.registerPath hpath) hrest
          next => cases hregister

theorem StoresPrefixes.registerServer {handlers table : Handlers}
    (hstores : StoresPrefixes handlers) {config : NginxConfig} {count : ℕ}
    (hregister : registerServer handlers config = some (count, table)) :
    StoresPrefixes table := by
  induction config with
  | nil =>
      cases hregister
      exact hstores
  | cons statement rest ih =>
      rw [RequestHandlerDispatcher.registerServer] at hregister
      split at hregister
      next => cases hregister
      next first arguments _ =>
        split at hregister
        next =>
          split at hregister
          next => cases hregister
          next block _ => exact hstores.registerLocations hregister
        next => exact ih hregister

theorem StoresPrefixes.initRequestHandlers {handlers table : Handlers}
    (hstores : StoresPrefixes handlers) {config : NginxConfig} {count : ℕ}
    (hinit : initRequestHandlers handlers config = some (count, table)) :
    StoresPrefixes table := by
  obtain ⟨⟨registered, filled⟩, hserver, hfilled⟩ :=
    Option.map_eq_some_iff.mp hinit
  have hserverStores := hstores.registerServer hserver
  cases hfilled
  dsimp only
  split
  next => exact hserverStores
  next =>
    apply hserverStores.insert
    intro stored hstored
    cases hstored

/-- What a handler takes when it takes `path` off the target. -/
structure TakesOff (handler : RequestHandler) (path target rest : Text) :
    Prop where
  target_eq : target = path ++ rest
  stored : handler.pathPrefix? = some path
  removePrefix : ∀ api, handler = .api api →
    api.removePrefix target = some rest
  replace : ∀ static, handler = .static static →
    static.pathPrefix.length ≤ target.length ∧
      static.uri target = "../".toList ++ (static.root ++ rest).drop 1

theorem takesOff_append {handler : RequestHandler} {path : Text}
    (hstored : handler.pathPrefix? = some path) (rest : Text) :
    TakesOff handler path (path ++ rest) rest := by
  refine ⟨rfl, hstored, ?_, ?_⟩
  · intro api hapi
    subst hapi
    cases hstored
    exact api.removePrefix_append rest
  · intro static hstatic
    subst hstatic
    cases hstored
    constructor
    · rw [List.length_append]
      exact Nat.le_add_right _ _
    · rw [RequestHandlerStatic.uri, List.drop_left]

theorem getRequestHandler_takesOff {config : NginxConfig} {count : ℕ}
    {handlers : Handlers}
    (hinit : initRequestHandlers ∅ config = some (count, handlers))
    {target : Text} {handler : RequestHandler}
    (hfound : getRequestHandler handlers target = some handler)
    (hprefixed : handler.pathPrefix? ≠ none) :
    (∃ path : Text, handlers[path]? = some handler) ∧
      ∀ path : Text, handlers[path]? = some handler →
        ∃ rest, TakesOff handler path target rest := by
  have hstores := storesPrefixes_empty.initRequestHandlers hinit
  obtain ⟨stored, hstored⟩ := Option.ne_none_iff_exists'.mp hprefixed
  obtain ⟨found, hhandler, hlongest⟩ := longestMatch_eq_some_iff.mp hfound
  refine ⟨⟨found, hhandler⟩, fun path hpath => ?_⟩
  have hsame : found = path :=
    (hstores found handler stored hhandler hstored).symm.trans
      (hstores path handler stored hpath hstored)
  subst hsame
  obtain ⟨rest, hrest⟩ :=
    hlongest.isPrefix.trans (Text.stripTrailingSlashes_prefix target)
  rw [hstores found handler stored hhandler hstored] at hstored
  rw [← hrest]
  exact ⟨rest, takesOff_append hstored rest⟩

theorem getRequestHandler_takesOff_nested :
    let config : NginxConfig :=
      [.block ["server".toList]
        [.block ["location".toList, "/static".toList, "StaticHandler".toList]
            [.simple ["root".toList, "/data".toList]],
          .block ["location".toList, "/static/api".toList,
            "APIHandler".toList] []]]
    ∃ count handlers handler,
      initRequestHandlers ∅ config = some (count, handlers) ∧
        (∃ path : Text, handlers[path]? = some handler) ∧
          ∀ path : Text, handlers[path]? = some handler →
            ∃ rest, TakesOff handler path "/static/hello.txt/".toList rest := by
  intro config
  let handler : RequestHandler := .static ⟨"/data".toList, "/static".toList⟩
  have hsome : (initRequestHandlers ∅ config).map (fun result =>
      getRequestHandler result.2 "/static/hello.txt/".toList) =
        some (some handler) := by decide +kernel
  obtain ⟨⟨count, handlers⟩, hinit, hfound⟩ := Option.map_eq_some_iff.mp hsome
  have hprefixed : handler.pathPrefix? ≠ none := by
    simp [handler, RequestHandler.pathPrefix?]
  exact ⟨count, handlers, handler, hinit,
    getRequestHandler_takesOff hinit hfound hprefixed⟩

/-! ## The file that a static location serves -/

theorem registerPath_static {handlers table : Handlers}
    {path handlerType root : Text} {block : NginxConfig}
    {handler : RequestHandlerStatic}
    (hregister : registerPath handlers path handlerType block =
      some (true, table))
    (hstatic : table[path.stripTrailingSlashes]? = some (.static handler))
    (hroot : rootLoop ['/'] block = some root) :
    handler = ⟨root, path.stripTrailingSlashes⟩ := by
  unfold registerPath at hregister
  simp only at hregister
  split at hregister
  next => simp at hregister
  next =>
    split at hregister
    next => cases hregister
    next => simp at hregister
    next made hmake =>
      cases hregister
      rw [getElem?_insert, if_pos rfl, Option.some_inj] at hstatic
      subst hstatic
      rw [makeHandler, hroot] at hmake
      split_ifs at hmake <;> cases hmake
      rfl

/-- The target of a file below a location: the stripped path, a slash and the
name, with no second slash behind `/`. -/
def fileTarget (location file : Text) : Text :=
  if location = ['/'] then '/' :: file else location ++ '/' :: file

theorem uri_fileTarget (root location file : Text)
    (hroot : root.head? = some '/') :
    (RequestHandlerStatic.mk root location).uri (fileTarget location file) =
      "..".toList ++ root ++
        if location = ['/'] then file else '/' :: file := by
  rw [RequestHandlerStatic.uri_eq hroot, RequestHandlerStatic.servedRoot,
    RequestHandlerStatic.behindPrefix, fileTarget]
  split
  next hslash => simp [hslash]
  next => simp

/-- The file that a location serves lies below its root, except for a location
`/` whose root does not end with a slash. -/
theorem uri_fileTarget_iff {handlers table : Handlers}
    {path handlerType root : Text} {block : NginxConfig}
    {handler : RequestHandlerStatic}
    (hregister : registerPath handlers path handlerType block =
      some (true, table))
    (hstatic : table[path.stripTrailingSlashes]? = some (.static handler))
    (hroot : rootLoop ['/'] block = some root)
    (hslash : root.head? = some '/') {file : Text}
    (hfile : file ≠ [] ∧ file.head? ≠ some '/') :
    Text.squeezeSlashes
          (handler.uri (fileTarget path.stripTrailingSlashes file)) =
        Text.squeezeSlashes ("..".toList ++ root ++ '/' :: file) ↔
      path.stripTrailingSlashes ≠ ['/'] ∨ root.getLast? = some '/' := by
  rw [registerPath_static hregister hstatic hroot,
    uri_fileTarget root _ file hslash]
  split
  next hlocation =>
    have hne : root ≠ [] := by
      intro hnil
      simp [hnil] at hslash
    rw [Text.squeezeSlashes_slash_iff _ hfile.2,
      List.getLast?_append_of_ne_nil _ hne]
    exact (or_iff_right (not_not.mpr hlocation)).symm
  next hlocation => exact iff_of_true rfl (.inl hlocation)

theorem uri_fileTarget_iff_static :
    let handler : RequestHandlerStatic := ⟨"/data".toList, "/static".toList⟩
    Text.squeezeSlashes
          (handler.uri (fileTarget "/static".toList "hello.txt".toList)) =
        Text.squeezeSlashes
          ("..".toList ++ "/data".toList ++ '/' :: "hello.txt".toList) ↔
      "/static".toList ≠ ['/'] ∨ "/data".toList.getLast? = some '/' :=
  @uri_fileTarget_iff ∅ _ "/static/".toList "StaticHandler".toList
    "/data".toList [.simple ["root".toList, "/data".toList]] _ rfl
    (by decide +kernel) rfl rfl _ (by decide)

/-- A location `/` with the root `/data` looks for `/hello.txt` next to the
root. -/
theorem not_uri_fileTarget_slash :
    ¬ ∀ (path root file : Text) (block : NginxConfig) (table : Handlers)
        (handler : RequestHandlerStatic),
      registerPath ∅ path "StaticHandler".toList block = some (true, table) →
      table[path.stripTrailingSlashes]? = some (.static handler) →
      rootLoop ['/'] block = some root → root.head? = some '/' →
      file ≠ [] ∧ file.head? ≠ some '/' →
      Text.squeezeSlashes
          (handler.uri (fileTarget path.stripTrailingSlashes file)) =
        Text.squeezeSlashes ("..".toList ++ root ++ '/' :: file) := by
  intro hclaim
  have hfile := hclaim ['/'] "/data".toList "hello.txt".toList
    [.simple ["root".toList, "/data".toList]] _ ⟨"/data".toList, ['/']⟩ rfl
    (by decide +kernel) rfl rfl (by decide)
  revert hfile
  decide +kernel

end RequestHandlerDispatcher

end Swifties
