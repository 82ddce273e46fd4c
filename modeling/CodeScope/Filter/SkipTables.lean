import CodeScope.Library.Text

/-! # The skip tables

The sets the constructor of `FilterPolicy` fills, in lower case as it leaves them, and the set of
directory names that is active in a mode. -/

namespace CodeScope.Filter

open Text (Str str lower Spelt str_eq)

inductive Mode where
  | normal
  | fast
  | strict
deriving DecidableEq, Repr

def lowercaseAll (s : List String) : List Str := s.map fun e => lower (str e)

/-! ## The tables -/

/-- VCS, IDE, build output, dependency, test and documentation directories. -/
def normalSkipDirs : List Str :=
  lowercaseAll [".git", ".svn", ".hg", ".worktrees", ".claude-worktrees", ".vscode", ".idea",
    ".eclipse", ".claude", "Antigravity", ".clangd", ".ccls-cache", ".cache", ".cpcache", ".vs",
    ".shadow-cljs", ".metals", ".bloop", ".bsp", ".mypy_cache", ".pytest_cache", ".ruff_cache",
    ".nox", ".tox", ".eggs", ".cargo", ".stack-work", ".dart_tool", "zig-cache", "zig-out",
    "elm-stuff", "_opam", ".swiftpm", ".tscache", ".awcache", ".npm", ".nyc_output", ".pnpm-store",
    ".yarn", ".pnp", ".next", ".nuxt", ".svelte-kit", ".angular", ".turbo", ".parcel-cache",
    ".docusaurus", ".expo", ".nx", "node_modules", "bower_components", "jspm_packages", ".deno",
    ".bun", ".venv", "venv", "env", ".env", "__pycache__", "site-packages", ".virtualenv",
    ".virtualenvs", "build", ".build", "dist", ".dist", "out", ".out", "target", "Pods",
    "Carthage", "DerivedData", "bazel-bin", "bazel-out", "bazel-testlogs", ".gradle", ".buck",
    ".buck-out", "obj", "Debug", "Release", "_build", ".mvn", "cmake-build-debug",
    "cmake-build-release", "coverage", "htmlcov", ".terraform", ".terragrunt-cache", ".serverless",
    ".vercel", ".netlify", ".codescope", ".codegraph", ".qdrant_code_embeddings", "temp", "tmp",
    ".tmp", ".ssh", ".atomcode", ".workbuddy", ".gemini", ".opencode", ".cursh", ".github",
    ".circleci", ".gitlab-ci", ".bitbucket", ".azure-pipelines", "plan", "changelogs", "infra",
    "deploy", "deployment", "docker", "kubernetes", "k8s", "helm", ".devcontainer", "Runtimelog",
    "runtimelog", "llvm_ir", "_deps", "generated", "gen", "auto-generated", "fixtures", "testdata",
    "test_data", "__tests__", "__mocks__", "__snapshots__", "__fixtures__", "__test__", "bin",
    "third_party", "thirdparty", "3rdparty", "vendor", "vendored", "bench", "benchmark",
    "benchmarks", "test", "tests", "docs", "doc", "documentation", "examples", "example",
    "samples", "sample", "e2e"]

def fastExtraSkipDirs : List Str :=
  lowercaseAll [".output", "storybook-static", "__generated__", "playwright-report",
    "test-results", "allure-results", "allure-report", ".sass-cache", ".scss-cache", "logs",
    ".logs"]

def skipDirPrefixes : List Str :=
  lowercaseAll ["build_", "cmake-build-", "_build", "tools-", "tools_"]

/-- Binaries, archives, media, secrets, generated and configuration files. -/
def skipSuffixes : List Str :=
  lowercaseAll [".o", ".obj", ".a", ".lib", ".so", ".dll", ".dylib", ".lo", ".la", ".slo", ".exe",
    ".bin", ".app", ".msi", ".scr", ".cpl", ".drv", ".ocx", ".efi", ".com", ".bat", ".cmd", ".ps1",
    ".deb", ".rpm", ".dmg", ".pkg", ".snap", ".flatpak", ".appimage", ".apk", ".aab", ".aar",
    ".ipa", ".xpi", ".crx", ".ko", ".kext", ".class", ".wasm", ".node", ".pyc", ".pyo", ".pyd",
    ".beam", ".elc", ".rlib", ".cmo", ".cma", ".cmi", ".cmx", ".hi", ".native", ".run", ".pdb",
    ".dbg", ".dwarf", ".dwo", ".sym", ".ilk", ".idb", ".exp", ".tlog", ".lastbuildstate",
    ".unsuccessfulbuild", ".png", ".jpg", ".jpeg", ".gif", ".ico", ".bmp", ".tiff", ".webp",
    ".svg", ".heic", ".heif", ".avif", ".raw", ".woff", ".woff2", ".ttf", ".eot", ".otf", ".mp3",
    ".mp4", ".avi", ".mov", ".wav", ".flac", ".ogg", ".mkv", ".webm", ".m4a", ".aac", ".m4v",
    ".wmv", ".pdf", ".doc", ".docx", ".xls", ".xlsx", ".ppt", ".pptx", ".odt", ".ods", ".odp",
    ".epub", ".zip", ".tar", ".gz", ".tgz", ".bz2", ".xz", ".rar", ".7z", ".lz", ".lzma", ".zst",
    ".cab", ".cpio", ".jar", ".war", ".ear", ".map", ".pem", ".crt", ".key", ".p12", ".pfx",
    ".jks", ".keystore", ".pb", ".avro", ".parquet", ".feather", ".orc", ".h5", ".hdf5", ".npy",
    ".npz", ".pkl", ".pickle", ".db", ".sqlite", ".sqlite3", ".mdb", ".accdb", ".log", ".tmp",
    ".swp", ".swo", ".bak", ".orig", ".rej", ".coverage", ".prof", ".profraw", ".gcda", ".gcno",
    ".gcov", ".iml", ".lock", "~", ".toml", ".yaml", ".yml", ".json", ".xml", ".ini", ".cfg",
    ".conf", ".properties", ".gradle", ".md", ".markdown", ".rst", ".adoc", ".tex", ".cmake",
    ".make", ".txt", ".csv", ".tsv", ".ll", ".bc", ".rmeta", ".d", ".graphql", ".gql", ".proto",
    ".dockerfile", ".service", ".socket"]

def fastExtraSuffixes : List Str :=
  lowercaseAll [".min.js", ".min.css"]

def fastExtraFilenames : List Str :=
  lowercaseAll [".eslintcache", ".stylelintcache", ".prettiercache", "tsconfig.tsbuildinfo"]

def fastExtraFilenamePrefixes : List Str :=
  lowercaseAll []

/-- Bundle and IDE project directories. -/
def skipDirSuffixes : List Str :=
  lowercaseAll [".app", ".framework", ".bundle", ".plugin", ".kext", ".xcodeproj", ".xcworkspace",
    ".xcdatamodeld", ".scnassets", ".xcassets", ".playground", ".playgroundpackage", ".docc",
    ".assetscatalog"]

def skipFilenames : List Str :=
  lowercaseAll ["package-lock.json", "yarn.lock", "pnpm-lock.yaml", "Gemfile.lock", "Cargo.lock",
    "composer.lock", "go.sum", "poetry.lock", "Pipfile.lock", "gradle.lockfile",
    "gradle.properties", ".DS_Store", "Thumbs.db", "desktop.ini", ".lsyncd.cfg", ".env",
    ".env.local", ".env.production", ".env.development", ".env.staging", ".env.test",
    ".env.example", ".npmrc", ".yarnrc", ".pypirc", ".netrc", ".p12", ".gitkeep", ".gitattributes",
    ".editorconfig", "yarn-error.log", "config.toml", "setup.cfg", "pyproject.toml",
    "docker-compose.yml", "docker-compose.yaml", "Dockerfile", ".gitconfig", ".npmignore",
    ".eslintignore", ".prettierignore", ".stylelintignore", "tsconfig.json", "jsconfig.json",
    ".babelrc", ".browserslistrc", ".node-version", ".python-version", ".tool-versions",
    "Makefile", "CMakeLists.txt", "GNUMakefile"]

def skipFilenamePrefixes : List Str :=
  lowercaseAll [".env.", "docker-compose."]

/-- Names skipped only within the first three components of a path. -/
def topOnlySkipDirs : List Str :=
  lowercaseAll ["scripts", "hack", "migrations", "seeds", "integration", "locale", "locales",
    "i18n", "l10n", "assets", "static", "public", "media", "external"]

/-- Names a Java project skips only within the first three components. -/
def javaProtectedSkipDirs : List Str :=
  lowercaseAll ["test", "tests", "docs", "doc", "documentation", "examples", "example", "samples",
    "sample", "scripts", "hack", "migrations", "seeds", "e2e", "integration", "locale", "locales",
    "i18n", "l10n", "assets", "static", "public", "media", "external", "vendor", "vendored",
    "bench", "benchmarks"]

/-! ## What is active -/

/-- `buildActiveSets` -/
def activeSkipDirs (mode : Mode) : List Str :=
  if mode = .fast then normalSkipDirs ++ fastExtraSkipDirs else normalSkipDirs

/-! ## The tables for evaluation -/

def spelledSkipDirs : Spelt normalSkipDirs := by
  apply Subtype.mk
  repeat
    apply congrArg₂ List.cons
    · exact congrArg lower (str_eq rfl)
  rfl

def spelledSuffixes : Spelt skipSuffixes := by
  apply Subtype.mk
  repeat
    apply congrArg₂ List.cons
    · exact congrArg lower (str_eq rfl)
  rfl

def spelledFilenames : Spelt skipFilenames := by
  apply Subtype.mk
  repeat
    apply congrArg₂ List.cons
    · exact congrArg lower (str_eq rfl)
  rfl

def spelledTopOnly : Spelt topOnlySkipDirs := by
  apply Subtype.mk
  repeat
    apply congrArg₂ List.cons
    · exact congrArg lower (str_eq rfl)
  rfl

def spelledProtected : Spelt javaProtectedSkipDirs := by
  apply Subtype.mk
  repeat
    apply congrArg₂ List.cons
    · exact congrArg lower (str_eq rfl)
  rfl

end CodeScope.Filter
